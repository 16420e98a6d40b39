import WordTemplate.Proofs.Xml.Dividing

/-!
# The content of a divided element

Content is what is no formatting, no empty text, and not below either. A division keeps the content
on its side of the place and moves the rest to the new element, each part in its order; of the nodes
that come in, none is content of before (`older`). Level by level:

* `older_contents_after`: what stays and what goes, one behind the other, is what there was.
* `shares_before`: in the other direction the nodes above the place stay behind what goes, so what
  stays and what goes are parts of what there was that leave nothing out.
* `contentTrees_kept_after`, `contentTrees_kept_before`: if no content goes, all content stays as it is.

`contents_after` and `contents_before` tell by the place what stays and what goes.
-/

namespace WordTemplate

open Xml Forest

namespace Xml

/-- The trees of content, with the content below it. -/
def contentTrees : Forest Node → Forest Node
  | nil => nil
  | cons node cs rest =>
    if node.label.isContent then cons node (contentTrees cs) (contentTrees rest)
    else contentTrees rest

/-- The nodes that are content, in document order. -/
def contents (f : Forest Node) : List NodeId :=
  ids (contentTrees f)

section Contents

variable {f : Forest Node}

@[simp] theorem contentTrees_nil : contentTrees nil = nil := rfl

theorem contentTrees_cons (node : Node) (cs rest : Forest Node) :
    contentTrees (cons node cs rest) =
      if node.label.isContent then cons node (contentTrees cs) (contentTrees rest)
      else contentTrees rest := rfl

@[simp] theorem contentTrees_append (f g : Forest Node) :
    contentTrees (f ++ g) = contentTrees f ++ contentTrees g := by
  induction f with
  | nil => rfl
  | cons node cs rest _ ih =>
    rw [cons_append, contentTrees_cons, contentTrees_cons, ih]
    split <;> rfl

theorem contentTrees_eq_nil_iff :
    contentTrees f = nil ↔ ∀ node ∈ f.roots, node.label.isContent = false := by
  induction f with
  | nil => simp [roots]
  | cons node cs rest _ ih =>
    rw [contentTrees_cons, roots, List.forall_mem_cons, ← ih]
    by_cases h : node.label.isContent = true <;> simp [h]

@[simp] theorem contentTrees_properties (f : Forest Node) : contentTrees (properties f) = nil :=
  contentTrees_eq_nil_iff.mpr fun _ h => Label.isContent_eq_false (mem_roots_properties h)

@[simp] theorem contentTrees_solids (f : Forest Node) : contentTrees (solids f) = contentTrees f := by
  induction f with
  | nil => rfl
  | cons node cs rest _ ih =>
    rw [solids_cons]
    split
    · rw [contentTrees_cons, contentTrees_cons, ih]
    · next h =>
      have hp : node.label.isProperty = true := by simpa using h
      rw [contentTrees_cons, Label.isContent_eq_false hp, if_neg Bool.false_ne_true, ih]

@[simp] theorem contents_nil : contents nil = [] := rfl

@[simp] theorem contents_append (f g : Forest Node) : contents (f ++ g) = contents f ++ contents g := by
  simp [contents]

theorem contents_cons (node : Node) (cs rest : Forest Node) :
    contents (cons node cs rest) =
      (if node.label.isContent then node.id :: contents cs else []) ++ contents rest := by
  rw [contents, contentTrees_cons]
  split <;> simp [contents]

@[simp] theorem contents_tree (node : Node) (cs : Forest Node) :
    contents (tree node cs) = if node.label.isContent then node.id :: contents cs else [] := by
  simp [tree, contents_cons]

@[simp] theorem contents_properties (f : Forest Node) : contents (properties f) = [] := by
  simp [contents]

@[simp] theorem contents_solids (f : Forest Node) : contents (solids f) = contents f := by
  simp [contents]

theorem contents_sublist (f : Forest Node) : (contents f).Sublist (ids f) := by
  induction f with
  | nil => exact List.Sublist.refl _
  | cons node cs rest ihc ihr =>
    rw [contents_cons, ids_cons, ← List.cons_append]
    refine List.Sublist.append ?_ ihr
    split
    · exact ihc.cons_cons _
    · exact List.nil_sublist _

end Contents

/-- The nodes with numbers below `fresh`. -/
def older (fresh : Nat) (l : List NodeId) : List NodeId :=
  l.filter (·.number < fresh)

@[simp] theorem older_append (fresh : Nat) (l l' : List NodeId) :
    older fresh (l ++ l') = older fresh l ++ older fresh l' :=
  List.filter_append ..

theorem older_eq_self {fresh : Nat} {l : List NodeId} (h : ∀ i ∈ l, i.number < fresh) :
    older fresh l = l :=
  List.filter_eq_self.mpr fun i hi => by simpa using h i hi

theorem older_cons {fresh : Nat} {i : NodeId} (h : i.number < fresh) (l : List NodeId) :
    older fresh (i :: l) = i :: older fresh l :=
  List.filter_cons_of_pos (by simpa using h)

theorem older_contents_eq_self {fresh : Nat} {f : Forest Node} (h : ∀ i ∈ ids f, i.number < fresh) :
    older fresh (contents f) = contents f :=
  older_eq_self fun i hi => h i ((contents_sublist f).mem hi)

end Xml

variable {f gone p : Forest Node} {δ : Division} {node : Node} {fr : Frame Node} {place : NodeId}
  {fresh : Nat}

/-! ## Content of a counterpart -/

/-- A counterpart has the content that goes to it, and is left out only if there is none. -/
theorem lower_cases (δ : Division) (node : Node) (p gone : Forest Node) :
    ((δ.raise node p gone).lower = nil ∧ contentTrees gone = nil) ∨
      ∃ cs, (δ.raise node p gone).lower = tree ⟨⟨δ.fresh⟩, node.label⟩ cs ∧
        contentTrees cs = contentTrees gone := by
  have hinside : contentTrees (Division.propertyCopies (δ.fresh + 1) p ++ gone) = contentTrees gone := by
    rw [contentTrees_append, contentTrees_eq_nil_iff.mpr fun _ h => isContent_propertyCopies h,
      nil_append]
  rw [Division.raise]
  dsimp only
  split
  · exact .inr ⟨_, rfl, hinside⟩
  · next hsolid =>
    rw [Bool.not_eq_true, List.any_eq_false] at hsolid
    refine .inl ⟨rfl, ?_⟩
    rw [← hinside]
    exact contentTrees_eq_nil_iff.mpr fun b hb => by simpa using hsolid b hb

theorem older_contents_lower (hle : fresh ≤ δ.fresh) :
    older fresh (contents (δ.raise node p gone).lower) =
      if node.label.isContent then older fresh (contents gone) else [] := by
  obtain ⟨hlower, hgone⟩ | ⟨cs, hlower, hcs⟩ := lower_cases δ node p gone
  · rw [hlower, contents, contents, hgone]
    simp [older]
  · rw [hlower, contents_tree, contents, hcs, ← contents]
    split
    · simp [older, hle]
    · rfl

theorem contentTrees_of_lower (hnode : node.label.isContent = true)
    (h : contentTrees (δ.raise node p gone).lower = nil) : contentTrees gone = nil := by
  obtain ⟨-, hgone⟩ | ⟨cs, hlower, -⟩ := lower_cases δ node p gone
  · exact hgone
  · rw [hlower, tree, contentTrees_cons, if_pos hnode] at h
    cases h

/-! ## What stays and what goes, after a place -/

theorem older_contents_after (hnd : (ids f).Nodup) (hplace : place ∈ ids f)
    (hlt : ∀ i ∈ ids f, i.number < fresh) :
    older fresh (contents ((Division.after place fresh f).kept ++
      ((Division.after place fresh f).lower ++ (Division.after place fresh f).moved))) = contents f := by
  obtain ⟨up, l, b, bs, r, rfl, rfl⟩ := exists_spot hplace
  obtain ⟨hup, hl⟩ := not_mem_of_spot hnd
  revert hlt
  have hb : b.id ∈ ids (l ++ cons b bs r) := by simp
  refine wrap_induction hb hup (fun fr _ g hfr ih hlt => ?_) fun hlt => ?_
  · have hle := (conserves_after b.id fresh g).fresh_le
    simp only [Frame.around, ids_append, ids_cons, List.mem_append, List.mem_cons] at hlt
    have hg := ih fun i hi => hlt i (.inr (.inr (.inl hi)))
    have hbefore := older_contents_eq_self fun i hi => hlt i (.inl hi)
    have hafter := older_contents_eq_self fun i hi => hlt i (.inr (.inr (.inr hi)))
    have hvalue := older_cons (hlt _ (.inr (.inl rfl)))
    rw [after_around hfr, Division.levelAfter, Frame.around]
    simp only [contents_append, older_append] at hg ⊢
    rw [older_contents_lower hle, hbefore, hafter, contents_cons, contents_tree]
    split
    · rw [← hg, hvalue, contents_append, older_append]
      simp
    · simp [older]
  · rw [after_here hl, older_contents_eq_self]
    · simp [contents_cons]
    · simpa [or_assoc] using hlt

/-! ## What stays and what goes, before a place -/

/-- `stay` and `go` are parts of `l`, each in the order of `l`, that together leave nothing out. -/
structure Shares (l stay go : List NodeId) : Prop where
  stay_sublist : stay.Sublist l
  go_sublist : go.Sublist l
  perm : (stay ++ go).Perm l

/-- The shares are told apart by what goes. -/
theorem Shares.eq_filter {l stay go goes : List NodeId} (h : Shares l stay go)
    (hstay : ∀ i ∈ stay, i ∉ goes) (hgo : ∀ i ∈ go, i ∈ goes) :
    stay = l.filter (· ∉ goes) ∧ go = l.filter (· ∈ goes) := by
  have hperm := fun q : NodeId → Bool => (h.perm.filter q).length_eq
  simp only [List.filter_append, List.length_append] at hperm
  have hstay' : stay.filter (· ∉ goes) = stay := List.filter_eq_self.mpr fun i hi => by simp [hstay i hi]
  have hgo' : go.filter (· ∈ goes) = go := List.filter_eq_self.mpr fun i hi => by simp [hgo i hi]
  have hnone : stay.filter (· ∈ goes) = [] := List.filter_eq_nil_iff.mpr fun i hi => by simp [hstay i hi]
  have hnone' : go.filter (· ∉ goes) = [] := List.filter_eq_nil_iff.mpr fun i hi => by simp [hgo i hi]
  constructor
  · have hsub := hstay' ▸ h.stay_sublist.filter (· ∉ goes)
    exact hsub.eq_of_length (by rw [← hperm, hstay', hnone', List.length_nil, Nat.add_zero])
  · have hsub := hgo' ▸ h.go_sublist.filter (· ∈ goes)
    exact hsub.eq_of_length (by rw [← hperm, hgo', hnone, List.length_nil, Nat.zero_add])

/-- One level up: `before` goes, `above` and `after` stay. -/
theorem Shares.around {l stay go : List NodeId} (h : Shares l stay go) (before above after : List NodeId) :
    Shares (before ++ (above ++ (l ++ after))) (above ++ (stay ++ after)) (before ++ go) where
  stay_sublist := ((List.Sublist.refl _).append (h.stay_sublist.append_right _)).trans
    (List.sublist_append_right _ _)
  go_sublist := (List.Sublist.refl _).append
    ((h.go_sublist.trans (List.sublist_append_left _ _)).trans (List.sublist_append_right _ _))
  perm := by
    have hperm := h.perm
    rw [List.perm_iff_count] at hperm ⊢
    intro i
    have hperm := hperm i
    simp only [List.count_append] at hperm ⊢
    omega

theorem shares_before (hnd : (ids f).Nodup) (hplace : place ∈ ids f)
    (hlt : ∀ i ∈ ids f, i.number < fresh) :
    Shares (contents f) (older fresh (contents (Division.before place fresh f).kept))
      (older fresh (contents ((Division.before place fresh f).moved ++
        (Division.before place fresh f).lower))) := by
  obtain ⟨up, l, b, bs, r, rfl, rfl⟩ := exists_spot hplace
  obtain ⟨hup, hl⟩ := not_mem_of_spot hnd
  have hb : b.id ∈ ids (l ++ cons b bs r) := by simp
  revert hlt
  refine wrap_induction hb hup (fun fr _ g hfr ih hlt => ?_) fun hlt => ?_
  · have hle := (conserves_before b.id fresh g).fresh_le
    simp only [Frame.around, ids_append, ids_cons, List.mem_append, List.mem_cons] at hlt
    have hg := ih fun i hi => hlt i (.inr (.inr (.inl hi)))
    have hbefore := older_contents_eq_self fun i hi => hlt i (.inl hi)
    have hafter := older_contents_eq_self fun i hi => hlt i (.inr (.inr (.inr hi)))
    have hvalue := older_cons (hlt _ (.inr (.inl rfl)))
    rw [before_around hfr, Division.levelBefore, Frame.around]
    dsimp only
    rw [contents_append, contents_append, contents_append, contents_cons, contents_cons,
      contents_properties, contents_solids, List.nil_append, older_append, older_append,
      older_contents_lower hle, hbefore, hafter]
    split
    · rw [hvalue]
      simpa using hg.around (contents fr.before) [fr.value.id] (contents fr.after)
    · have hnone : Shares [] [] [] := ⟨.refl _, .refl _, .refl _⟩
      simpa [older] using hnone.around (contents fr.before) [] (contents fr.after)
  · rw [ids_append] at hlt
    have hl' := older_contents_eq_self fun i hi => hlt i (List.mem_append_left _ hi)
    have hr := older_contents_eq_self fun i hi => hlt i (List.mem_append_right _ hi)
    have hrest : Shares (contents (cons b bs r)) (contents (cons b bs r)) [] :=
      ⟨.refl _, List.nil_sublist _, by simp⟩
    rw [before_here hl]
    simpa [hl', hr] using hrest.around (contents l) [] []

/-! ## If no content goes -/

theorem contentTrees_kept_after (fresh : Nat) (hnd : (ids f).Nodup) (hplace : place ∈ ids f)
    (h : contentTrees (Division.after place fresh f).lower = nil)
    (h' : contentTrees (Division.after place fresh f).moved = nil) :
    contentTrees (Division.after place fresh f).kept = contentTrees f := by
  obtain ⟨up, l, b, bs, r, rfl, rfl⟩ := exists_spot hplace
  obtain ⟨hup, hl⟩ := not_mem_of_spot hnd
  have hb : b.id ∈ ids (l ++ cons b bs r) := by simp
  revert h h'
  refine wrap_induction hb hup (fun fr _ g hfr ih => ?_) ?_
  · rw [after_around hfr, Division.levelAfter, Frame.around]
    intro hlower hmoved
    have hafter : contentTrees fr.after = nil := hmoved
    simp only [tree, contentTrees_append, contentTrees_cons, hafter, contentTrees_nil]
    split
    · next hvalue =>
      have hgone := contentTrees_of_lower hvalue hlower
      rw [contentTrees_append, append_eq_nil_iff] at hgone
      rw [ih hgone.1 hgone.2]
    · rfl
  · rw [after_here hl]
    intro _ hr
    have hr : contentTrees r = nil := hr
    simp [tree, contentTrees_cons, hr]

theorem contentTrees_kept_before (fresh : Nat) (hnd : (ids f).Nodup) (hplace : place ∈ ids f)
    (h : contentTrees (Division.before place fresh f).moved = nil)
    (h' : contentTrees (Division.before place fresh f).lower = nil) :
    contentTrees (Division.before place fresh f).kept = contentTrees f := by
  obtain ⟨up, l, b, bs, r, rfl, rfl⟩ := exists_spot hplace
  obtain ⟨hup, hl⟩ := not_mem_of_spot hnd
  have hb : b.id ∈ ids (l ++ cons b bs r) := by simp
  revert h h'
  refine wrap_induction hb hup (fun fr _ g hfr ih => ?_) ?_
  · rw [before_around hfr, Division.levelBefore, Frame.around]
    intro hmoved hlower
    have hbefore : contentTrees fr.before = nil := by simpa using hmoved
    simp only [contentTrees_append, contentTrees_cons, contentTrees_properties, hbefore]
    split
    · next hvalue =>
      have hgone := contentTrees_of_lower hvalue hlower
      rw [contentTrees_append, append_eq_nil_iff] at hgone
      rw [ih hgone.1 hgone.2]
    · rfl
  · rw [before_here hl]
    intro hmoved _
    have hl' : contentTrees l = nil := by simpa using hmoved
    simp [hl']

/-! ## On which side of the place -/

section Sides

variable {up : List (Frame Node)} {l r bs : Forest Node} {b : Node}

/-- After a place, the content behind it goes. -/
theorem contents_after (hnd : (ids (wrap up (l ++ cons b bs r))).Nodup)
    (hlt : ∀ i ∈ ids (wrap up (l ++ cons b bs r)), i.number < fresh)
    (hδ : δ = Division.after b.id fresh (wrap up (l ++ cons b bs r)))
    {back : List NodeId} (hback : back = ids r ++ (closing up).map Node.id) :
    contents δ.kept = (contents (wrap up (l ++ cons b bs r))).filter (· ∉ back) ∧
      older fresh (contents (δ.lower ++ δ.moved)) =
        (contents (wrap up (l ++ cons b bs r))).filter (· ∈ back) := by
  obtain ⟨f, hf⟩ : ∃ f, wrap up (l ++ cons b bs r) = f := ⟨_, rfl⟩
  have hids : ids f = (opening up).map Node.id ++ ids l ++ ids (tree b bs) ++ back := by
    rw [← hf, hback, ids_wrap]
    simp
  have hkept : ids δ.kept = (opening up).map Node.id ++ ids l ++ ids (tree b bs) := by
    rw [hδ, kept_after _ hnd, ids_wrap]
    simp
  have hplace : b.id ∈ ids f := by simp [hids]
  rw [hf] at hnd hlt hδ ⊢
  have hsplit := older_contents_after hnd hplace hlt
  have hconserves := conserves_after b.id fresh f
  rw [← hδ] at hsplit hconserves
  have hold : older fresh (contents δ.kept) = contents δ.kept :=
    older_contents_eq_self fun i hi => hlt i (by rw [hids, ← hkept]; simp [hi])
  rw [contents_append, older_append, hold] at hsplit
  have hshares : Shares (contents f) (contents δ.kept) (older fresh (contents (δ.lower ++ δ.moved))) :=
    hsplit ▸ ⟨List.sublist_append_left _ _, List.sublist_append_right _ _, .refl _⟩
  refine hshares.eq_filter (fun i hi hb => ?_) fun i hi => ?_
  · rw [hids, ← hkept, List.nodup_append] at hnd
    exact hnd.2.2 i ((contents_sublist _).mem hi) i hb rfl
  · obtain ⟨hi, hlt'⟩ := List.mem_filter.mp hi
    have hi := (contents_sublist _).mem hi
    have hmem := hconserves.mem_of_lt hi (by simpa using hlt')
    rw [hids, ← hkept] at hmem
    exact (List.mem_append.mp hmem).resolve_left (hconserves.not_mem_kept hnd hlt hi)

/-- In front of a place, only nodes above it stay. -/
theorem mem_contents_wrap_beginHere {i : NodeId} {g : Forest Node}
    (h : i ∈ contents (wrap (up.map Frame.beginHere) g)) :
    i ∈ up.map (·.value.id) ∨ i ∈ contents g ∨ i ∈ (closing up).map Node.id := by
  induction up generalizing g with
  | nil => exact .inr (.inl h)
  | cons fr up ih =>
    have hrest : i ∈ contents fr.after → i ∈ (closing (fr :: up)).map Node.id := fun hi => by
      rw [closing, List.map_append]
      exact List.mem_append_left _ ((contents_sublist _).mem hi)
    rcases ih h with h | h | h
    · exact .inl (List.mem_cons_of_mem _ h)
    · rw [Frame.beginHere, contents_append, contents_properties, List.nil_append, contents_cons,
        List.mem_append] at h
      rcases h with h | h
      · split at h
        · rcases List.mem_cons.mp h with rfl | h
          · exact .inl List.mem_cons_self
          · exact .inr (.inl h)
        · cases h
      · exact .inr (.inr (hrest h))
    · refine .inr (.inr ?_)
      rw [closing, List.map_append]
      exact List.mem_append_right _ h

/-- Before a place, the content in front of it goes, but for the nodes above it. -/
theorem contents_before (hnd : (ids (wrap up (l ++ cons b bs r))).Nodup)
    (hlt : ∀ i ∈ ids (wrap up (l ++ cons b bs r)), i.number < fresh)
    (hδ : δ = Division.before b.id fresh (wrap up (l ++ cons b bs r)))
    {front : List NodeId} (hfront : front = (opening up).map Node.id ++ ids l)
    {goes : List NodeId} (hgoes : goes = front.filter (· ∉ up.map (·.value.id))) :
    contents δ.kept = (contents (wrap up (l ++ cons b bs r))).filter (· ∉ goes) ∧
      older fresh (contents (δ.moved ++ δ.lower)) =
        (contents (wrap up (l ++ cons b bs r))).filter (· ∈ goes) := by
  obtain ⟨f, hf⟩ : ∃ f, wrap up (l ++ cons b bs r) = f := ⟨_, rfl⟩
  have hids : ids f = front ++ (ids (cons b bs r) ++ (closing up).map Node.id) := by
    rw [← hf, hfront, ids_wrap]
    simp
  have hdis := (List.nodup_append.mp (hids ▸ hf ▸ hnd)).2.2
  have hkept : ids δ.kept = (opening (up.map Frame.beginHere)).map Node.id ++
      (ids (properties l) ++ (ids (cons b bs r) ++ (closing up).map Node.id)) := by
    rw [hδ, kept_before _ hnd, ids_wrap]
    simp
  have hsub : (ids δ.kept).Sublist (ids f) := by
    rw [hkept, hids, hfront, List.append_assoc]
    exact (opening_map_beginHere_sublist up).append ((ids_filterRoots_sublist _ l).append_right _)
  have hcontents : ∀ i ∈ contents δ.kept, i ∈ up.map (·.value.id) ∨
      i ∈ ids (cons b bs r) ++ (closing up).map Node.id := by
    intro i hi
    rw [hδ, kept_before _ hnd] at hi
    rcases mem_contents_wrap_beginHere hi with h | h | h
    · exact .inl h
    · rw [contents_append, contents_properties, List.nil_append] at h
      exact .inr (List.mem_append_left _ ((contents_sublist _).mem h))
    · exact .inr (List.mem_append_right _ h)
  have hplace : b.id ∈ ids f := by simp [hids]
  rw [hf] at hnd hlt hδ ⊢
  have hshares := shares_before hnd hplace hlt
  have hconserves := conserves_before b.id fresh f
  rw [← hδ] at hshares hconserves
  rw [older_contents_eq_self fun i hi => hlt i (hsub.mem hi)] at hshares
  refine hshares.eq_filter (fun i hi hg => ?_) fun i hi => ?_
  · simp only [hgoes, List.mem_filter, decide_eq_true_eq] at hg
    exact (hcontents i hi).elim hg.2 fun h => hdis i hg.1 i h rfl
  · obtain ⟨hi, hlt'⟩ := List.mem_filter.mp hi
    have hi := (contents_sublist _).mem hi
    have hmem := hconserves.mem_of_lt hi (by simpa using hlt')
    have hnot := hconserves.not_mem_kept hnd hlt hi
    simp only [hgoes, List.mem_filter, decide_eq_true_eq]
    rw [hids, List.mem_append] at hmem
    refine ⟨hmem.resolve_right fun h => hnot (by simp only [hkept, List.mem_append] at h ⊢; tauto), ?_⟩
    intro habove
    obtain ⟨fr, hfr, rfl⟩ := List.mem_map.mp habove
    have hvalue := value_mem_opening (List.mem_map_of_mem (f := Frame.beginHere) hfr)
    exact hnot (hkept ▸ List.mem_append_left _ (List.mem_map_of_mem (f := Node.id) hvalue))

end Sides

end WordTemplate
