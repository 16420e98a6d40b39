import WordTemplate.Proofs.Word.Sound
import WordTemplate.Proofs.Xml.Division
import WordTemplate.Proofs.Xml.Position

/-!
# Landmarks of a divided forest

A division at a landmark keeps the landmarks on its side and moves the others, in their order. What
moves stands below counterparts of the nodes above the place of the division: `relocate` puts their
identifiers into the path of a landmark.

* `splits_after`: a division after a landmark moves the landmarks behind it.
* `splits_before`: a division before a landmark moves the landmarks in front of it.
* `divideAfter_spec`, `divideBefore_spec`: what the two divisions do to a document.
-/

namespace WordTemplate

open Xml Forest

/-! ## Landmarks below other nodes -/

def Crumb.relocate (g : NodeId → NodeId) (c : Crumb) : Crumb :=
  { c with node := g c.node }

/-- The landmark with other nodes above it, of the same names. -/
def Landmark.relocate (g : NodeId → NodeId) (x : Landmark) : Landmark :=
  { x with path := x.path.map (Crumb.relocate g) }

/-- Whether `g` is the identity but on `path`, where it can give new identifiers. -/
def Relocates (g : NodeId → NodeId) (path : List NodeId) (fresh : Nat) : Prop :=
  ∀ i, g i = i ∨ i ∈ path ∧ fresh ≤ (g i).number

section Relocate

variable {g h : NodeId → NodeId} {path : List NodeId} {fresh : Nat} {x : Landmark}

@[simp] theorem relocate_node : (x.relocate g).node = x.node := rfl

@[simp] theorem relocate_sign : (x.relocate g).sign = x.sign := rfl

theorem above_relocate : (x.relocate g).above = x.above.map g := by
  simp [Landmark.above, Landmark.relocate, Crumb.relocate]

theorem relocate_congr (hgh : ∀ i ∈ x.above, g i = h i) : x.relocate g = x.relocate h := by
  obtain ⟨node, sign, path⟩ := x
  simp only [Landmark.relocate, Landmark.mk.injEq, true_and]
  refine List.map_congr_left fun c hc => ?_
  simp only [Crumb.relocate]
  rw [hgh c.node (by simpa [Landmark.above] using ⟨c, hc, rfl⟩)]

@[simp] theorem relocate_id : x.relocate id = x := by
  have : Crumb.relocate id = id := rfl
  simp [Landmark.relocate, this]

theorem Relocates.eq_self (hg : Relocates g path fresh) {i : NodeId} (h : i ∉ path) : g i = i :=
  (hg i).resolve_right fun hi => h hi.1

/-- Landmarks with no node of the path above them stay as they are. -/
theorem Relocates.map_eq_self (hg : Relocates g path fresh) {l : List Landmark}
    (h : ∀ x ∈ l, ∀ i ∈ x.above, i ∉ path) : l.map (·.relocate g) = l := by
  conv_rhs => rw [← List.map_id l]
  refine List.map_congr_left fun x hx => ?_
  rw [relocate_congr (g := g) (h := id) fun i hi => hg.eq_self (h x hx i hi), relocate_id]
  rfl

theorem relocates_id : Relocates id path fresh := fun _ => .inl rfl

theorem relocate_below (outer : List Crumb) :
    (x.below outer).relocate g = (x.relocate g).below (outer.map (Crumb.relocate g)) := by
  simp [Landmark.relocate, Landmark.below]

end Relocate

/-! ## Where a division takes place -/

/-- A landmark of a forest is at its first root, below it, or behind the first tree. -/
theorem landmark_cases {node : Node} {children rest : Forest Node} {u w : List Landmark}
    {x : Landmark} (hnd : (ids (cons node children rest)).Nodup)
    (h : landmarks (cons node children rest) = u ++ x :: w) :
    (node.id = x.node ∧ landmarks (tree node children) = [x] ∧ u = [] ∧ w = landmarks rest) ∨
      (node.id ≠ x.node ∧ x.node ∈ ids children ∧ node.label.isLandmark = false ∧
        ∃ u' x' w', landmarks children = u' ++ x' :: w' ∧ u = u'.map (·.below [crumbOf node]) ∧
          x = x'.below [crumbOf node] ∧ w = w'.map (·.below [crumbOf node]) ++ landmarks rest) ∨
      (node.id ≠ x.node ∧ x.node ∉ ids children ∧
        ∃ u', landmarks rest = u' ++ x :: w ∧ u = landmarks (tree node children) ++ u') := by
  rw [ids_cons, List.nodup_cons, List.nodup_append] at hnd
  obtain ⟨hn, -, -, hdis⟩ := hnd
  rw [landmarks_cons] at h
  have hrest : ∀ {u'}, landmarks rest = u' ++ x :: w → node.id ≠ x.node ∧ x.node ∉ ids children := by
    intro u' hr
    have hmem := (mem_ids_of_mem_landmarks (f := rest) (x := x) (by simp [hr])).1
    exact ⟨fun he => hn (by simp [he, hmem]), fun hc => hdis _ hc _ hmem rfl⟩
  rcases List.append_eq_append_iff.mp h with ⟨u', rfl, hr⟩ | ⟨t, ht, hw⟩
  · exact .inr (.inr ⟨(hrest hr).1, (hrest hr).2, u', hr, rfl⟩)
  · cases t with
    | nil =>
      have hr : landmarks rest = [] ++ x :: w := hw.symm
      exact .inr (.inr ⟨(hrest hr).1, (hrest hr).2, [], hr, by simpa using ht.symm⟩)
    | cons x' t =>
      obtain ⟨rfl, rfl⟩ := List.cons.inj hw
      by_cases hl : node.label.isLandmark = true
      · rw [landmarks_tree_of_isLandmark children hl] at ht
        obtain ⟨rfl, ht⟩ : u = [] ∧ _ := by
          cases u with
          | nil => exact ⟨rfl, ht⟩
          | cons => simp at ht
        obtain ⟨rfl, rfl⟩ := List.cons.inj ht
        exact .inl ⟨rfl, landmarks_tree_of_isLandmark children hl, rfl, rfl⟩
      · rw [Bool.not_eq_true] at hl
        rw [landmarks_tree children hl] at ht
        obtain ⟨u', s, hs, rfl, hx⟩ := List.map_eq_append_iff.mp ht
        obtain ⟨x', w', rfl, rfl, rfl⟩ := List.map_eq_cons_iff.mp hx
        have hmem : x'.node ∈ ids children :=
          (mem_ids_of_mem_landmarks (f := children) (x := x') (by simp [hs])).1
        exact .inr (.inl ⟨fun he => hn (by simp [he, hmem]), hmem, hl, u', x', w', hs, rfl, rfl,
          rfl⟩)

/-! ## The parts of a division -/

/-- The division of `f` keeps the landmarks `stay` and takes the landmarks `go` to `gone`. -/
structure Splits (mute : List String) (f : Forest Node) (fresh : Nat) (δ : Division)
    (path : List NodeId) (stay go : List Landmark) (gone : Forest Node) : Prop where
  fresh_le : fresh ≤ δ.fresh
  perm : (ids (δ.kept ++ (gone ++ δ.dropped))).Perm
    (ids f ++ (List.range' fresh (δ.fresh - fresh)).map NodeId.mk)
  landmarks_kept : landmarks δ.kept = stay
  landmarks_gone : ∃ g, Relocates g path fresh ∧ landmarks gone = go.map (·.relocate g)
  quiet_dropped : Quiet (labels δ.dropped)
  sound_kept : Sound mute (labels δ.kept)
  sound_gone : Sound mute (labels gone)
  lower_eq : δ.lower = nil ∨ ∃ node cs, δ.lower = tree node cs

theorem Splits.conserves {mute : List String} {f gone : Forest Node} {fresh : Nat} {δ : Division}
    {path : List NodeId} {stay go : List Landmark} (h : Splits mute f fresh δ path stay go gone) :
    Conserves f fresh δ gone :=
  ⟨h.fresh_le, h.perm⟩

theorem landmarks_propertyCopies {mute : List String} {fresh : Nat} {f : Forest Node}
    (h : Sound mute (labels f)) : Quiet (labels (Division.propertyCopies fresh f)) := by
  rw [Division.propertyCopies, labels_identify]
  exact h.quiet_properties

/-- Without content, a forest is quiet. -/
theorem quiet_of_roots {mute : List String} {f : Forest Node} (h : Sound mute (labels f))
    (hc : f.roots.any (·.label.isContent) = false) : Quiet (labels f) := by
  induction f with
  | nil => simp
  | cons node cs rest _ ih =>
    rw [labels_cons, sound_cons] at h
    simp only [roots, List.any_cons, Bool.or_eq_false_iff] at hc
    have hm : node.label.isMute mute = true := by
      cases hn : node.label with
      | text content => exact Label.isMute_text mute content
      | element tag =>
        refine Label.isMute_of_isProperty ?_
        simpa [hn, Label.isContent, Label.isProperty] using hc.1
    have := h.1.quiet_of_isMute hm
    rw [labels_cons, quiet_cons]
    rw [quiet_tree] at this
    exact ⟨this.1, this.2, ih h.2 hc.2⟩

/-- The division one level up. -/
theorem Splits.raise {mute : List String} {children gone p : Forest Node} {fresh : Nat}
    {δ : Division} {path : List NodeId} {stay go : List Landmark} {node : Node}
    (h : Splits mute children fresh δ path stay go gone)
    (hl : node.label.isLandmark = false) (hm : node.label.isMute mute = false)
    (hp : Sound mute (labels p)) (hid : ∀ x ∈ go, node.id ∉ x.above) :
    Splits mute (tree node children) fresh (δ.raise node p gone) (path ++ [node.id])
      (stay.map (·.below [crumbOf node])) (go.map (·.below [crumbOf node]))
      (δ.raise node p gone).lower := by
  obtain ⟨g, hg, hgone⟩ := h.landmarks_gone
  have hle := h.fresh_le
  obtain ⟨hfresh, hperm⟩ := h.conserves.raise node p
  let copies := Division.propertyCopies (δ.fresh + 1) p
  have hcopies : Quiet (labels copies) := landmarks_propertyCopies hp
  have hinside : Sound mute (labels (copies ++ gone)) := by
    rw [labels_append, sound_append]
    exact ⟨.of_quiet hcopies, h.sound_gone⟩
  let counterpart := tree { node with id := ⟨δ.fresh⟩ } (copies ++ gone)
  have hkept : landmarks (tree node δ.kept) = stay.map (·.below [crumbOf node]) := by
    rw [landmarks_tree _ hl, h.landmarks_kept]
  have hskept : Sound mute (labels (tree node δ.kept)) := by
    rw [labels_tree, sound_tree_of_open hl hm]
    exact h.sound_kept
  have hscounter : Sound mute (labels counterpart) := by
    rw [labels_tree, sound_tree_of_open hl hm]
    exact hinside
  by_cases hsolid : (copies ++ gone).roots.any (·.label.isContent) = true
  · have hraise : δ.raise node p gone =
        ⟨tree node δ.kept, counterpart, nil, δ.dropped, δ.fresh + 1 + copies.size⟩ := by
      simp only [Division.raise]
      rw [if_pos hsolid, if_pos hsolid]
    rw [hraise] at hfresh hperm ⊢
    refine ⟨hfresh, hperm, hkept, ?_, h.quiet_dropped, hskept, hscounter, .inr ⟨_, _, rfl⟩⟩
    · refine ⟨fun i => if i = node.id then ⟨δ.fresh⟩ else g i, ?_, ?_⟩
      · intro i
        by_cases hi : i = node.id
        · refine .inr ⟨by simp [hi], ?_⟩
          simp only [hi, if_true]
          exact hle
        · simp only [hi, if_false]
          exact (hg i).imp_right fun h => ⟨by simp [h.1], h.2⟩
      · have hlabel : (⟨⟨δ.fresh⟩, node.label⟩ : Node).label.isLandmark = false := hl
        change landmarks (tree _ (copies ++ gone)) = _
        rw [landmarks_tree _ hlabel, landmarks_append, landmarks_eq_nil_iff.mpr hcopies,
          List.nil_append, hgone, List.map_map, List.map_map]
        refine List.map_congr_left fun x hx => ?_
        simp only [Function.comp_apply, relocate_below, List.map_cons, List.map_nil]
        rw [relocate_congr (g := g) (h := fun i => if i = node.id then ⟨δ.fresh⟩ else g i)]
        · simp [Crumb.relocate, crumbOf]
        · intro i hi
          have : i ≠ node.id := fun he => hid x hx (he ▸ hi)
          simp [this]
  · rw [Bool.not_eq_true] at hsolid
    have hquiet := quiet_of_roots hinside hsolid
    have hgo : go = [] := by
      rw [labels_append, quiet_append] at hquiet
      rw [landmarks_eq_nil_iff.mpr hquiet.2] at hgone
      simpa using hgone.symm
    have hraise : δ.raise node p gone =
        ⟨tree node δ.kept, nil, nil, counterpart ++ δ.dropped, δ.fresh + 1 + copies.size⟩ := by
      have hnot : ¬ (copies ++ gone).roots.any (·.label.isContent) = true := by
        rw [hsolid]
        exact Bool.false_ne_true
      simp only [Division.raise]
      rw [if_neg hnot, if_neg hnot]
    rw [hraise] at hfresh hperm ⊢
    refine ⟨hfresh, hperm, hkept, ?_, ?_, hskept, by simp, .inl rfl⟩
    · exact ⟨id, relocates_id, by simp [hgo]⟩
    · change Quiet (labels (counterpart ++ δ.dropped))
      rw [labels_append, quiet_append]
      refine ⟨?_, h.quiet_dropped⟩
      rw [labels_tree, quiet_tree]
      exact ⟨hl, hquiet⟩

/-- A division with other trees around what it keeps and what it moves. -/
theorem Splits.around {mute : List String} {f gone : Forest Node} {fresh : Nat} {δ δ' : Division}
    {path : List NodeId} {stay go : List Landmark} (h : Splits mute f fresh δ path stay go gone)
    {gone' : Forest Node} {stay' go' : List Landmark} (f' : Forest Node) (extra : List NodeId)
    (hfresh : δ'.fresh = δ.fresh) (hdropped : δ'.dropped = δ.dropped) (hlower : δ'.lower = δ.lower)
    (hf : (ids f').Perm (ids f ++ extra))
    (hids : (ids (δ'.kept ++ gone')).Perm (ids (δ.kept ++ gone) ++ extra))
    (hstay : landmarks δ'.kept = stay')
    (hgo : ∀ g, Relocates g path fresh → landmarks gone = go.map (·.relocate g) →
      landmarks gone' = go'.map (·.relocate g))
    (hskept : Sound mute (labels δ'.kept)) (hsgone : Sound mute (labels gone')) :
    Splits mute f' fresh δ' path stay' go' gone' where
  fresh_le := (h.conserves.around extra hfresh hdropped hf hids).fresh_le
  perm := (h.conserves.around extra hfresh hdropped hf hids).perm
  landmarks_kept := hstay
  landmarks_gone := by
    obtain ⟨g, hg, hgone⟩ := h.landmarks_gone
    exact ⟨g, hg, hgo g hg hgone⟩
  quiet_dropped := hdropped ▸ h.quiet_dropped
  sound_kept := hskept
  sound_gone := hsgone
  lower_eq := hlower ▸ h.lower_eq

/-! ## Dividing after a landmark -/

section After

variable {mute : List String} {node : Node} {children rest : Forest Node} {place : NodeId}
  {fresh : Nat}

/-- A division after a landmark moves the landmarks behind it. -/
theorem splits_after (fresh : Nat) {f : Forest Node} {u w : List Landmark} {x : Landmark}
    (hnd : (ids f).Nodup) (hs : Sound mute (labels f)) (hl : landmarks f = u ++ x :: w) :
    Splits mute f fresh (Division.after x.node fresh f) x.above (u ++ [x]) w
      ((Division.after x.node fresh f).lower ++ (Division.after x.node fresh f).moved) := by
  induction f generalizing u w x with
  | nil => simp at hl
  | cons node children rest ihc ihr =>
    have hnd' := hnd
    rw [ids_cons, List.nodup_cons, List.nodup_append] at hnd'
    obtain ⟨hn, hndc, hndr, hdis⟩ := hnd'
    rw [labels_cons, sound_cons] at hs
    rcases landmark_cases hnd hl with ⟨hid, ht, rfl, rfl⟩ |
      ⟨hid, hmem, hlm, u', x', w', hc, rfl, rfl, rfl⟩ | ⟨hid, hmem, u', hr, rfl⟩
    · rw [after_of_eq hid]
      exact
        { fresh_le := Nat.le_refl _
          perm := by simp
          landmarks_kept := by simpa using ht
          landmarks_gone := ⟨id, relocates_id, by simp⟩
          quiet_dropped := by simp
          sound_kept := by simpa using hs.1
          sound_gone := by simpa using hs.2
          lower_eq := .inl rfl }
    · have hloud : ¬ Quiet (labels children) := by
        rw [← landmarks_eq_nil_iff, hc]
        simp
      obtain ⟨-, hm⟩ := hs.1.open hloud
      have hbelow := ihc hndc hs.1.children hc
      simp only [Landmark.below_node] at hid hmem ⊢
      rw [after_of_mem hid hmem]
      have hraise := hbelow.raise (p := (Division.after x'.node fresh children).kept ++
        (Division.after x'.node fresh children).moved) hlm hm (by
          have := hbelow.sound_gone
          rw [labels_append, sound_append] at this ⊢
          exact ⟨hbelow.sound_kept, this.2⟩) (fun y hy hi => hn (by
            simp [(mem_ids_of_mem_landmarks (f := children) (x := y) (by simp [hc, hy])).2 _ hi]))
      have habove : (x'.below [crumbOf node]).above = x'.above ++ [node.id] := by
        simp [crumbOf]
      rw [habove]
      refine hraise.around (cons node children rest) (ids rest) rfl rfl rfl ?_ ?_ ?_
        ?_ hraise.sound_kept ?_
      · simp
      · simp
      · rw [hraise.landmarks_kept]
        simp
      · intro g hg hgone
        change landmarks (_ ++ rest) = _
        rw [landmarks_append, hgone, List.map_append, hg.map_eq_self (l := landmarks rest)]
        intro y hy i hi hp
        have hir := (mem_ids_of_mem_landmarks hy).2 i hi
        rcases List.mem_append.mp hp with hp | hp
        · have hic := (mem_ids_of_mem_landmarks (f := children) (x := x') (by simp [hc])).2 i hp
          exact hdis i hic i hir rfl
        · exact hn (by simp_all)
      · rw [labels_append, sound_append]
        exact ⟨hraise.sound_gone, hs.2⟩
    · rw [after_of_not_mem hid hmem]
      have hrest := ihr hndr hs.2 hr
      refine hrest.around (cons node children rest) (ids (tree node children)) rfl rfl rfl ?_ ?_ ?_
        (fun _ _ h => h) ?_ hrest.sound_gone
      · rw [ids_tree, ids_cons, ← List.cons_append]
        exact List.perm_append_comm
      · simp only [cons_append, ids_tree, ids_cons, ← List.cons_append]
        exact List.perm_append_comm
      · rw [landmarks_cons, hrest.landmarks_kept, List.append_assoc]
      · rw [labels_cons, sound_cons]
        exact ⟨hs.1, hrest.sound_kept⟩

end After

/-! ## Dividing before a landmark -/

section Before

variable {mute : List String} {node : Node} {children rest : Forest Node} {place : NodeId}
  {fresh : Nat}

/-- A division before a landmark moves the landmarks in front of it. -/
theorem splits_before (fresh : Nat) {f : Forest Node} {u w : List Landmark} {x : Landmark}
    (hnd : (ids f).Nodup) (hs : Sound mute (labels f)) (hl : landmarks f = u ++ x :: w) :
    Splits mute f fresh (Division.before x.node fresh f) x.above (x :: w) u
      ((Division.before x.node fresh f).moved ++ (Division.before x.node fresh f).lower) := by
  induction f generalizing u w x with
  | nil => simp at hl
  | cons node children rest ihc ihr =>
    have hnd' := hnd
    rw [ids_cons, List.nodup_cons, List.nodup_append] at hnd'
    obtain ⟨hn, hndc, hndr, hdis⟩ := hnd'
    rw [labels_cons, sound_cons] at hs
    rcases landmark_cases hnd hl with ⟨hid, ht, rfl, rfl⟩ |
      ⟨hid, hmem, hlm, u', x', w', hc, rfl, rfl, rfl⟩ | ⟨hid, hmem, u', hr, rfl⟩
    · rw [before_of_eq hid]
      exact
        { fresh_le := Nat.le_refl _
          perm := by simp
          landmarks_kept := by rw [landmarks_cons, ht]; rfl
          landmarks_gone := ⟨id, relocates_id, by simp⟩
          quiet_dropped := by simp
          sound_kept := by rw [labels_cons, sound_cons]; exact hs
          sound_gone := by simp
          lower_eq := .inl rfl }
    · have hloud : ¬ Quiet (labels children) := by
        rw [← landmarks_eq_nil_iff, hc]
        simp
      obtain ⟨-, hm⟩ := hs.1.open hloud
      have hbelow := ihc hndc hs.1.children hc
      simp only [Landmark.below_node] at hid hmem ⊢
      rw [before_of_mem hid hmem]
      have hraise := hbelow.raise hlm hm hbelow.sound_kept (fun y hy hi => hn (by
        simp [(mem_ids_of_mem_landmarks (f := children) (x := y) (by simp [hc, hy])).2 _ hi]))
      have habove : (x'.below [crumbOf node]).above = x'.above ++ [node.id] := by
        simp [crumbOf]
      rw [habove]
      refine hraise.around (cons node children rest) (ids rest) rfl rfl rfl ?_ ?_ ?_
        (fun _ _ h => h) ?_ hraise.sound_gone
      · simp
      · change (ids (tree node _ ++ rest ++ (nil ++ _))).Perm (ids (tree node _ ++ _) ++ ids rest)
        simp only [ids_append, ids_nil, List.nil_append, List.append_assoc]
        exact List.Perm.append_left _ List.perm_append_comm
      · have := hraise.landmarks_kept
        change landmarks (tree node _) = _ at this
        rw [landmarks_append, this]
        simp
      · have := hraise.sound_kept
        rw [labels_append, sound_append]
        exact ⟨this, hs.2⟩
    · rw [before_of_not_mem hid hmem]
      have hrest := ihr hndr hs.2 hr
      split
      · next hp =>
        have hq := hs.1.quiet_of_isMute (Label.isMute_of_isProperty hp)
        have hnil : landmarks (tree node children) = [] := landmarks_eq_nil_iff.mpr hq
        rw [hnil, List.nil_append]
        refine hrest.around (cons node children rest) (ids (tree node children)) rfl rfl rfl ?_ ?_ ?_
          (fun _ _ h => h) ?_ hrest.sound_gone
        · rw [ids_tree, ids_cons, ← List.cons_append]
          exact List.perm_append_comm
        · simp only [cons_append, ids_tree, ids_cons, ← List.cons_append]
          exact List.perm_append_comm
        · rw [landmarks_cons, hrest.landmarks_kept, hnil, List.nil_append]
        · rw [labels_cons, sound_cons]
          exact ⟨hs.1, hrest.sound_kept⟩
      · refine hrest.around (cons node children rest) (ids (tree node children)) rfl rfl rfl ?_ ?_
          hrest.landmarks_kept ?_ hrest.sound_kept ?_
        · rw [ids_tree, ids_cons, ← List.cons_append]
          exact List.perm_append_comm
        · simp only [ids_append, cons_append, ids_tree, ids_cons]
          rw [List.perm_iff_count]
          intro i
          simp only [List.count_append, List.count_cons]
          omega
        · intro g hg hgone
          rw [cons_append, landmarks_cons, hgone, List.map_append,
            hg.map_eq_self (l := landmarks (tree node children))]
          intro y hy i hi hp
          have hit := (mem_ids_of_mem_landmarks hy).2 i hi
          have hir := (mem_ids_of_mem_landmarks (f := rest) (x := x) (by simp [hr])).2 i hp
          rw [ids_tree, List.mem_cons] at hit
          rcases hit with rfl | hit
          · exact hn (by simp [hir])
          · exact hdis i hit i hir rfl
        · rw [cons_append, labels_cons, sound_cons]
          exact ⟨hs.1, hrest.sound_gone⟩

end Before

/-! ## Nothing behind a place -/

/-- Whether nothing stands behind `place`, on any level. -/
def EndsAt (place : NodeId) : Forest Node → Prop
  | .nil => False
  | .cons node children .nil => node.id = place ∨ EndsAt place children
  | .cons _ _ (.cons node children rest) => EndsAt place (.cons node children rest)

section EndsAt

variable {place : NodeId} {node : Node} {children f : Forest Node} {fresh : Nat}

theorem endsAt_cons (h : EndsAt place f) : EndsAt place (cons node children f) := by
  cases f with
  | nil => exact h.elim
  | cons => exact h

theorem EndsAt.mem_ids (h : EndsAt place f) : place ∈ ids f := by
  induction f with
  | nil => exact h.elim
  | cons node children rest ihc ihr =>
    rw [ids_cons]
    cases rest with
    | nil =>
      rcases h with rfl | h
      · simp
      · simp [ihc h]
    | cons => exact List.mem_cons_of_mem _ (List.mem_append_right _ (ihr h))

/-- A division leaves nothing behind the place in what it keeps. -/
theorem endsAt_kept (fresh : Nat) (h : place ∈ ids f) : EndsAt place (Division.after place fresh f).kept := by
  induction f with
  | nil => simp at h
  | cons node children rest ihc ihr =>
    by_cases hid : node.id = place
    · rw [after_of_eq hid]
      exact .inl hid
    · by_cases hc : place ∈ ids children
      · rw [after_of_mem hid hc]
        exact .inr (ihc hc)
      · rw [after_of_not_mem hid hc]
        refine endsAt_cons (ihr ?_)
        simpa [Ne.symm hid, hc] using h

/-- If nothing stands behind the place, there is nothing to divide off. -/
theorem after_of_endsAt (fresh : Nat) (hnd : (ids f).Nodup) (h : EndsAt place f) :
    (Division.after place fresh f).kept = f ∧ (Division.after place fresh f).lower = nil ∧
      (Division.after place fresh f).moved = nil := by
  induction f with
  | nil => exact h.elim
  | cons node children rest ihc ihr =>
    rw [ids_cons, List.nodup_cons, List.nodup_append] at hnd
    obtain ⟨hn, hndc, hndr, hdis⟩ := hnd
    cases rest with
    | nil =>
      by_cases hid : node.id = place
      · rw [after_of_eq hid]
        exact ⟨rfl, rfl, rfl⟩
      · have hc : EndsAt place children := h.resolve_left hid
        obtain ⟨hk, hl, hm⟩ := ihc hndc hc
        rw [after_of_mem hid hc.mem_ids, hk, hl, hm]
        have hcopies : (Division.propertyCopies ((Division.after place fresh children).fresh + 1)
            children).roots.any (·.label.isContent) = false := by
          rw [List.any_eq_false]
          exact fun b hb => by simp [isContent_propertyCopies hb]
        simp only [Division.raise, append_nil, hcopies, Bool.false_eq_true, if_false, hk]
        exact ⟨rfl, trivial, trivial⟩
    | cons node' children' rest' =>
      have hr : EndsAt place (cons node' children' rest') := h
      have hmem := hr.mem_ids
      obtain ⟨hk, hl, hm⟩ := ihr hndr hr
      rw [after_of_not_mem (fun he => hn (he ▸ List.mem_append_right _ hmem)) fun hc =>
        hdis _ hc _ hmem rfl]
      exact ⟨by rw [hk], hl, hm⟩

end EndsAt

/-! ## Dividing in a document -/

namespace Xml.Document

variable {d : Document} {root : NodeId} {mute : List String} {fr : Frame Node}
  {up : List (Frame Node)} {l r as : Forest Node} {a : Node} {u w : List Landmark} {x : Landmark}

/-- A tree below the root of the tree it is in. -/
theorem WellFormed.root_not_mem (wf : d.WellFormed)
    (hF : d.treeAt root = wrap (fr :: up) (l ++ cons a as r)) :
    root ∈ d.ids ∧ d.treeAt a.id = tree a as ∧ root ∉ Xml.ids (tree a as) := by
  obtain ⟨fr', up', htrees, -, -⟩ := wf.exists_spot_of_treeAt hF
  have ht := treeAt_eq wf htrees
  have hroot : root ∈ d.ids := by
    by_contra hn
    rw [wf.treeAt_eq_nil hn] at hF
    have := congrArg toList hF
    simp [toList_wrap, toList, opening] at this
  refine ⟨hroot, ht, fun hmem => ?_⟩
  -- Otherwise the tree at the root would be a part of itself.
  have hsub : (Xml.ids (d.treeAt root)).Sublist (Xml.ids (tree a as)) := by
    rw [← ht] at hmem ⊢
    rw [← wf.treeAt_treeAt hmem]
    exact ids_treeAt_sublist
  have hlen := hsub.length_le
  rw [hF, ids_wrap] at hlen
  simp only [opening, List.map_append, List.length_append, ids_append, ids_cons, ids_tree,
    List.map_cons, List.length_cons] at hlen
  omega

theorem divideAfter_spec (wf : d.WellFormed) (hs : Sound mute (labels (d.treeAt root)))
    (hF : d.treeAt root = wrap (fr :: up) (l ++ cons a as r))
    (hl : landmarks (tree a as) = u ++ x :: w) :
    ∃ δ : Division, Splits mute (tree a as) d.fresh δ x.above (u ++ [x]) w δ.lower ∧
      δ = Division.after x.node d.fresh (tree a as) ∧
      (∃ kcs, δ.kept = tree a kcs) ∧ EndsAt x.node δ.kept ∧
      (d.divideAfter a.id x.node).1 = a.id :: δ.lower.roots.map Node.id ∧
      d.Grows (d.divideAfter a.id x.node).2 ∧
      (d.divideAfter a.id x.node).2.treeAt root =
        wrap (fr :: up) (l ++ (δ.kept ++ (δ.lower ++ r))) := by
  obtain ⟨hroot, ht, hrt⟩ := wf.root_not_mem hF
  have hnd := wf.nodup_treeAt root
  have hnda : (Xml.ids (tree a as)).Nodup := ht ▸ wf.nodup_treeAt a.id
  have hsa : Sound mute (labels (tree a as)) := by
    have := (hF ▸ hs).of_wrap
    rw [labels_append, labels_cons, sound_append, sound_cons] at this
    exact this.2.1
  have hx : x.node ∈ Xml.ids (tree a as) := (mem_ids_of_mem_landmarks (by simp [hl])).1
  have hsplit := splits_after d.fresh hnda hsa hl
  have hends := endsAt_kept d.fresh hx
  obtain ⟨hplace, heq⟩ | ⟨δ, -, rfl, hkept, hmoved, heq⟩ := wf.divideAfter_cases ht x.node
  · have he : a.id = x.node := by simpa [hplace, Eq.comm] using hx
    have htree : Division.after x.node d.fresh (tree a as) = ⟨tree a as, nil, nil, nil, d.fresh⟩ :=
      after_of_eq he
    rw [htree] at hsplit hends
    refine ⟨_, hsplit, htree.symm, ⟨as, rfl⟩, hends, ?_⟩
    rw [heq]
    exact ⟨rfl, .refl wf, hF⟩
  · rw [hmoved, append_nil] at hsplit
    refine ⟨_, hsplit, rfl, hkept, hends, ?_⟩
    obtain ⟨hgrows, hat⟩ := wf.settle_spec (p := (Division.after x.node d.fresh (tree a as)).kept ++
      (Division.after x.node d.fresh (tree a as)).lower) ht hsplit.fresh_le (by
        rw [append_assoc]
        exact hsplit.perm)
    rw [heq]
    refine ⟨rfl, hgrows, ?_⟩
    rw [hat root hroot hrt, replace_spot hnd hF, append_assoc]

theorem divideBefore_spec (wf : d.WellFormed) (hs : Sound mute (labels (d.treeAt root)))
    (hF : d.treeAt root = wrap (fr :: up) (l ++ cons a as r))
    (hl : landmarks (tree a as) = u ++ x :: w) :
    ∃ δ : Division, Splits mute (tree a as) d.fresh δ x.above (x :: w) u δ.lower ∧
      (∃ kcs, δ.kept = tree a kcs) ∧ d.Grows (d.divideBefore a.id x.node).2 ∧
      (d.divideBefore a.id x.node).2.treeAt root =
        wrap (fr :: up) (l ++ (δ.lower ++ (δ.kept ++ r))) := by
  obtain ⟨hroot, ht, hrt⟩ := wf.root_not_mem hF
  have hnd := wf.nodup_treeAt root
  have hnda : (Xml.ids (tree a as)).Nodup := ht ▸ wf.nodup_treeAt a.id
  have hsa : Sound mute (labels (tree a as)) := by
    have := (hF ▸ hs).of_wrap
    rw [labels_append, labels_cons, sound_append, sound_cons] at this
    exact this.2.1
  have hx : x.node ∈ Xml.ids (tree a as) := (mem_ids_of_mem_landmarks (by simp [hl])).1
  have hsplit := splits_before d.fresh hnda hsa hl
  obtain ⟨hplace, heq⟩ | ⟨δ, -, rfl, hkept, hmoved, heq⟩ := wf.divideBefore_cases ht x.node
  · have he : a.id = x.node := by simpa [hplace, Eq.comm] using hx
    have htree : Division.before x.node d.fresh (tree a as) = ⟨tree a as, nil, nil, nil, d.fresh⟩ :=
      before_of_eq he
    rw [htree] at hsplit
    refine ⟨_, hsplit, ⟨as, rfl⟩, ?_⟩
    rw [heq]
    exact ⟨.refl wf, hF⟩
  · rw [hmoved, nil_append] at hsplit
    refine ⟨_, hsplit, hkept, ?_⟩
    obtain ⟨hgrows, hat⟩ := wf.settle_spec
      (p := (Division.before x.node d.fresh (tree a as)).lower ++
        (Division.before x.node d.fresh (tree a as)).kept) ht hsplit.fresh_le (by
          refine List.Perm.trans ?_ hsplit.perm
          rw [append_assoc]
          simp only [ids_append]
          rw [← List.append_assoc, ← List.append_assoc]
          exact List.Perm.append_right _ List.perm_append_comm)
    rw [heq]
    refine ⟨hgrows, ?_⟩
    rw [hat root hroot hrt, replace_spot hnd hF, append_assoc]

end Xml.Document

end WordTemplate
