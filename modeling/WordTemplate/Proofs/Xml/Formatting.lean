import WordTemplate.Proofs.Xml.Each
import WordTemplate.Proofs.Xml.Halves
import WordTemplate.Xml.Markup

/-!
# The formatting of a divided element

Before a place, a division takes the content in front of the way and leaves the formatting where it
is, and every counterpart gets a copy of it (`Preserves`). After a place, it takes all that is behind the way:
formatting that stands there goes to a counterpart that has a copy of it already. So there, both
halves have the formatting of before only if none stands behind the way.

* `preserves_before`, `preserves_after`: what is known on every level.
* `divideBefore_keepsFormatting`, `divideAfter_keepsFormatting`: the two divisions of a document.
* `divideAfter_loses_formatting`: formatting behind the place is lost.
-/

namespace WordTemplate

open Xml Forest

variable {f g gone p : Forest Node} {δ : Division} {node : Node} {fr : Frame Node} {place : NodeId}
  {fresh : Nat} {Q Q' : Node → Forest Node → Prop}

/-! ## Nodes outside formatting -/

/-- Whether `Q` holds of the nodes that are not in formatting, each with the trees below it. -/
def Throughout (Q : Node → Forest Node → Prop) : Forest Node → Prop
  | nil => True
  | cons node cs rest =>
    (node.label.isProperty = false → Q node cs ∧ Throughout Q cs) ∧ Throughout Q rest

@[simp] theorem throughout_nil : Throughout Q nil := trivial

theorem throughout_cons {cs rest : Forest Node} :
    Throughout Q (cons node cs rest) ↔
      (node.label.isProperty = false → Q node cs ∧ Throughout Q cs) ∧ Throughout Q rest :=
  .rfl

@[simp] theorem throughout_append : Throughout Q (f ++ g) ↔ Throughout Q f ∧ Throughout Q g := by
  induction f with
  | nil => simp
  | cons node cs rest _ ih => simp [throughout_cons, ih, and_assoc]

theorem Throughout.mono (h : Throughout Q f)
    (hQ : ∀ node ∈ f.toList, ∀ cs, Q node cs → Q' node cs) : Throughout Q' f := by
  induction f with
  | nil => trivial
  | cons node cs rest ihc ihr =>
    simp only [toList, List.mem_cons, List.mem_append] at hQ
    exact ⟨fun hp => ⟨hQ _ (.inl rfl) _ (h.1 hp).1, ihc (h.1 hp).2 fun b hb => hQ b (.inr (.inl hb))⟩,
      ihr h.2 fun b hb => hQ b (.inr (.inr hb))⟩

theorem throughout_of_forall (h : ∀ node ∈ f.toList, ∀ cs, Q node cs) : Throughout Q f := by
  induction f with
  | nil => trivial
  | cons node cs rest ihc ihr =>
    simp only [toList, List.mem_cons, List.mem_append] at h
    exact ⟨fun _ => ⟨h _ (.inl rfl) _, ihc fun b hb => h b (.inr (.inl hb))⟩,
      ihr fun b hb => h b (.inr (.inr hb))⟩

/-- Formatting alone. -/
theorem throughout_of_roots (h : ∀ node ∈ f.roots, node.label.isProperty = true) : Throughout Q f := by
  induction f with
  | nil => trivial
  | cons node cs rest _ ih =>
    rw [roots, List.forall_mem_cons] at h
    exact ⟨fun hp => by simp [h.1] at hp, ih h.2⟩

theorem properties_eq_self (h : ∀ node ∈ f.roots, node.label.isProperty = true) : properties f = f := by
  induction f with
  | nil => rfl
  | cons node cs rest _ ih =>
    rw [roots, List.forall_mem_cons] at h
    rw [properties_cons, if_pos h.1, ih h.2]

/-- Nothing but formatting stays when nothing else is there. -/
theorem properties_eq_self_of_solids (h : solids f = nil) : properties f = f := by
  induction f with
  | nil => rfl
  | cons node cs rest _ ih =>
    rw [solids_cons] at h
    by_cases hp : node.label.isProperty = true
    · rw [properties_cons, if_pos hp, ih (by simpa [hp] using h)]
    · simp [hp] at h

theorem properties_eq_nil_of_roots (h : ∀ node ∈ f.roots, node.label.isProperty = false) :
    properties f = nil := by
  induction f with
  | nil => rfl
  | cons node cs rest _ ih =>
    rw [roots, List.forall_mem_cons] at h
    rw [properties_cons, h.1, if_neg Bool.false_ne_true, ih h.2]

/-- Without formatting and empty texts, all is content. -/
theorem eq_nil_of_not_isContent (hp : properties f = nil) (hK : Labelled (· ≠ .text "") f)
    (h : ∀ node ∈ f.roots, node.label.isContent = false) : f = nil := by
  cases f with
  | nil => rfl
  | cons node cs rest =>
    have hcontent := h node List.mem_cons_self
    have hnode := (each_cons.mp hK).1
    by_cases hprop : node.label.isProperty = true
    · simp [properties_cons, hprop] at hp
    · cases hl : node.label with
      | text content => simp_all [Label.isContent, String.isEmpty_iff]
      | element tag => simp_all [Label.isContent, Label.isProperty]

/-! ## Formatting on every level -/

/-- Whether a node is old or a counterpart of a node above the place: it has the label of that node
and copies of its formatting. -/
def Counterpart (f : Forest Node) (place : NodeId) (fresh : Nat) (node : Node) (cs : Forest Node) : Prop :=
  fresh ≤ node.id.number → ∃ up l q qs r, f = wrap up (l ++ cons q qs r) ∧ place ∈ ids qs ∧
    node.label = q.label ∧ labels (properties cs) = labels (properties qs)

theorem Counterpart.around {cs : Forest Node} (h : Counterpart f place fresh node cs) (fr : Frame Node) :
    Counterpart (fr.around f) place fresh node cs := by
  intro hnew
  obtain ⟨up, l, q, qs, r, rfl, hq⟩ := h hnew
  exact ⟨up ++ [fr], l, q, qs, r, (wrap_append up [fr] _).symm, hq⟩

/-- A division leaves all formatting where it is, and each counterpart has copies of it. -/
structure Preserves (place : NodeId) (fresh : Nat) (f : Forest Node) (δ : Division) : Prop where
  kept : properties δ.kept = properties f
  lower : properties δ.lower = nil
  moved : properties δ.moved = nil
  old : ∀ i ∈ ids δ.moved, i.number < fresh
  counterparts : Throughout (Counterpart f place fresh) δ.lower
  unchanged : Labelled (· ≠ .text "") f → δ.lower = nil → δ.moved = nil → δ.kept = f

/-- The counterpart one level up. -/
theorem Preserves.raise (h : Preserves place fresh f δ) (hplace : place ∈ ids f)
    (hnode : node.label.isProperty = false) (hp : labels (properties p) = labels (properties f))
    (hgone : gone = δ.lower ++ δ.moved ∨ gone = δ.moved ++ δ.lower) (before after : Forest Node) :
    properties (δ.raise node p gone).lower = nil ∧
      Throughout (Counterpart ((⟨before, node, after⟩ : Frame Node).around f) place fresh)
        (δ.raise node p gone).lower := by
  have hgp : properties gone = nil := by rcases hgone with rfl | rfl <;> simp [h.lower, h.moved]
  have hgt : Throughout (Counterpart f place fresh) gone := by
    have hmoved : Throughout (Counterpart f place fresh) δ.moved := throughout_of_forall fun b hb _ hnew =>
      absurd (h.old b.id (List.mem_map_of_mem hb)) (Nat.not_lt.mpr hnew)
    rcases hgone with rfl | rfl <;> simp [h.counterparts, hmoved]
  have hroots : ∀ b ∈ (Division.propertyCopies (δ.fresh + 1) p).roots, b.label.isProperty = true := by
    intro b hb
    obtain ⟨a, -, ha, hlabel⟩ := exists_of_mem_propertyCopies hb
    exact hlabel ▸ ha
  rw [Division.raise]
  dsimp only
  split
  · refine ⟨by simp [tree, properties_cons, hnode], fun _ => ⟨fun _ => ?_, ?_⟩, trivial⟩
    · refine ⟨[], before, node, f, after, rfl, hplace, rfl, ?_⟩
      rw [properties_append, hgp, append_nil, properties_eq_self hroots, ← hp]
      exact labels_identify _ _
    · exact throughout_append.mpr ⟨throughout_of_roots hroots, hgt.mono fun _ _ _ hb => hb.around _⟩
  · exact ⟨rfl, trivial⟩

/-- Nothing goes up if no counterpart comes in. -/
theorem Preserves.gone_eq_nil (h : Preserves place fresh f δ)
    (hK : Labelled (· ≠ .text "") (δ.lower ++ δ.moved))
    (hgone : gone = δ.lower ++ δ.moved ∨ gone = δ.moved ++ δ.lower)
    (hnil : (δ.raise node p gone).lower = nil) : δ.lower = nil ∧ δ.moved = nil := by
  rw [← append_eq_nil_iff]
  refine eq_nil_of_not_isContent (by simp [h.lower, h.moved]) hK fun b hb => ?_
  rw [Division.raise] at hnil
  dsimp only at hnil
  split at hnil
  · cases hnil
  · next hsolid =>
    rw [Bool.not_eq_true, List.any_eq_false] at hsolid
    have hmem : b ∈ gone.roots := by
      rcases hgone with rfl | rfl
      · exact hb
      · rw [roots_append, List.mem_append] at hb ⊢
        exact hb.symm
    simpa using hsolid b (by simp [hmem])

theorem labelled_gone_after {K : Label → Prop} (place : NodeId) (fresh : Nat) (h : Labelled K f) :
    Labelled K ((Division.after place fresh f).lower ++ (Division.after place fresh f).moved) := by
  have hlabels := labelled_after place fresh h
  simp only [each_append] at hlabels
  exact each_append.mpr ⟨hlabels.2.1, hlabels.2.2.1⟩

theorem labelled_gone_before {K : Label → Prop} (place : NodeId) (fresh : Nat) (h : Labelled K f) :
    Labelled K ((Division.before place fresh f).lower ++ (Division.before place fresh f).moved) := by
  have hlabels := labelled_before place fresh h
  simp only [each_append] at hlabels
  exact each_append.mpr ⟨hlabels.2.1, hlabels.2.2.1⟩

section Spot

variable {up : List (Frame Node)} {l r bs : Forest Node} {b : Node}

theorem preserves_before (hnd : (ids (wrap up (l ++ cons b bs r))).Nodup)
    (hlt : ∀ i ∈ ids (wrap up (l ++ cons b bs r)), i.number < fresh)
    (hopen : ∀ fr ∈ up, fr.value.label.isProperty = false) :
    Preserves b.id fresh (wrap up (l ++ cons b bs r))
      (Division.before b.id fresh (wrap up (l ++ cons b bs r))) := by
  obtain ⟨hup, hl⟩ := not_mem_of_spot hnd
  have hb : b.id ∈ ids (l ++ cons b bs r) := by simp
  revert hlt
  refine wrap_induction hb hup (fun fr hmem g hfr ih hlt => ?_) fun hlt => ?_
  · simp only [Frame.around, ids_append, ids_cons, List.mem_append, List.mem_cons] at hlt
    have h := ih fun i hi => hlt i (.inr (.inr (.inl hi)))
    have hvalue := hopen fr hmem
    obtain ⟨hlower, hcounterparts⟩ := h.raise hfr.mem hvalue (congrArg labels h.kept) (.inr rfl)
      fr.before fr.after
    rw [before_around hfr]
    exact
      { kept := by simp [Division.levelBefore, Frame.around, properties_cons, hvalue]
        lower := hlower
        moved := properties_solids _
        old := fun i hi => hlt i (.inl ((ids_filterRoots_sublist _ _).mem hi))
        counterparts := hcounterparts
        unchanged := fun hK hnil hmoved => by
          have hKg : Labelled (· ≠ .text "") g := (each_cons.mp (each_append.mp hK).2).2.1
          have hnone := h.gone_eq_nil (labelled_gone_before b.id fresh hKg) (.inr rfl) hnil
          rw [Division.levelBefore, Frame.around, h.unchanged hKg hnone.1 hnone.2,
            properties_eq_self_of_solids hmoved] }
  · rw [ids_append] at hlt
    rw [before_here hl]
    exact
      { kept := by simp
        lower := rfl
        moved := properties_solids _
        old := fun i hi => hlt i (List.mem_append_left _ ((ids_filterRoots_sublist _ _).mem hi))
        counterparts := trivial
        unchanged := fun _ _ hmoved => by rw [properties_eq_self_of_solids hmoved] }

/-- After a place it must not stand behind the way. -/
theorem preserves_after (hnd : (ids (wrap up (l ++ cons b bs r))).Nodup)
    (hlt : ∀ i ∈ ids (wrap up (l ++ cons b bs r)), i.number < fresh)
    (hopen : ∀ fr ∈ up, fr.value.label.isProperty = false)
    (hbehind : ∀ fr ∈ up, properties fr.after = nil) (hr : properties r = nil) :
    Preserves b.id fresh (wrap up (l ++ cons b bs r))
      (Division.after b.id fresh (wrap up (l ++ cons b bs r))) := by
  obtain ⟨hup, hl⟩ := not_mem_of_spot hnd
  have hb : b.id ∈ ids (l ++ cons b bs r) := by simp
  revert hlt
  refine wrap_induction hb hup (fun fr hmem g hfr ih hlt => ?_) fun hlt => ?_
  · simp only [Frame.around, ids_append, ids_cons, List.mem_append, List.mem_cons] at hlt
    have h := ih fun i hi => hlt i (.inr (.inr (.inl hi)))
    have hvalue := hopen fr hmem
    obtain ⟨hlower, hcounterparts⟩ := h.raise hfr.mem hvalue
      (p := (Division.after b.id fresh g).kept ++ (Division.after b.id fresh g).moved)
      (by rw [properties_append, h.kept, h.moved, append_nil]) (.inl rfl) fr.before fr.after
    rw [after_around hfr]
    exact
      { kept := by simp [Division.levelAfter, Frame.around, tree, properties_cons, hvalue, hbehind fr hmem]
        lower := hlower
        moved := hbehind fr hmem
        old := fun i hi => hlt i (.inr (.inr (.inr hi)))
        counterparts := hcounterparts
        unchanged := fun hK hnil hmoved => by
          have hKg : Labelled (· ≠ .text "") g := (each_cons.mp (each_append.mp hK).2).2.1
          have hnone := h.gone_eq_nil (labelled_gone_after b.id fresh hKg) (.inl rfl) hnil
          have hafter : fr.after = nil := hmoved
          rw [Division.levelAfter, Frame.around, h.unchanged hKg hnone.1 hnone.2, hafter]
          rfl }
  · rw [ids_append, ids_cons] at hlt
    rw [after_here hl]
    exact
      { kept := by simp [tree, properties_cons, hr]
        lower := rfl
        moved := hr
        old := fun i hi => hlt i (by simp [hi])
        counterparts := trivial
        unchanged := fun _ _ hmoved => by
          have hmoved : r = nil := hmoved
          rw [hmoved]
          rfl }

theorem ids_sublist_wrap (up : List (Frame Node)) (f : Forest Node) :
    (ids f).Sublist (ids (wrap up f)) := by
  rw [ids_wrap]
  exact (List.sublist_append_left _ _).trans (List.sublist_append_right _ _)

/-- The level of a node above the place. -/
theorem exists_level (hnd : (ids (wrap up (l ++ cons b bs r))).Nodup) (hfr : fr ∈ up) :
    ∃ inner outer, wrap up (l ++ cons b bs r) = wrap outer (fr.around (wrap inner (l ++ cons b bs r))) ∧
      (∀ fr' ∈ inner, fr' ∈ up) ∧ LeadsTo fr b.id (wrap inner (l ++ cons b bs r)) ∧
      b.id ∉ (opening outer).map Node.id ∧
      (ids (wrap inner (l ++ cons b bs r))).Sublist (ids (wrap up (l ++ cons b bs r))) := by
  obtain ⟨inner, outer, rfl⟩ := List.append_of_mem hfr
  have hup := (not_mem_of_spot hnd).1
  rw [opening_append, List.map_append, List.mem_append, not_or] at hup
  obtain ⟨houter, hleads⟩ := leadsTo_of_opening
    (show b.id ∈ ids (wrap inner (l ++ cons b bs r)) by simp [ids_wrap]) hup.1
  refine ⟨inner, outer, wrap_append .., fun fr' h => List.mem_append_left _ h, hleads, houter, ?_⟩
  rw [wrap_append, wrap]
  refine List.Sublist.trans ?_ (ids_sublist_wrap outer _)
  rw [ids_append, ids_cons]
  exact ((List.sublist_append_left _ _).cons _).trans (List.sublist_append_right _ _)

/-- A node stands in both forests, with the same formatting. -/
def SameFormatting (q : Node) (f g : Forest Node) : Prop :=
  ∃ up l qs r up' l' qs' r', f = wrap up (l ++ cons q qs r) ∧ g = wrap up' (l' ++ cons q qs' r') ∧
    properties qs' = properties qs

theorem sameFormatting_before (hnd : (ids (wrap up (l ++ cons b bs r))).Nodup)
    (hlt : ∀ i ∈ ids (wrap up (l ++ cons b bs r)), i.number < fresh)
    (hopen : ∀ fr ∈ up, fr.value.label.isProperty = false) (hfr : fr ∈ up) :
    SameFormatting fr.value (wrap up (l ++ cons b bs r))
      (Division.before b.id fresh (wrap up (l ++ cons b bs r))).kept := by
  obtain ⟨inner, outer, hwrap, hinner, hleads, houter, hsub⟩ := exists_level hnd hfr
  have h := preserves_before (hsub.nodup hnd) (fun i hi => hlt i (hsub.mem hi))
    fun fr' hfr' => hopen fr' (hinner fr' hfr')
  refine ⟨outer, fr.before, _, fr.after, outer.map Frame.beginHere, properties fr.before, _, fr.after,
    hwrap, ?_, h.kept⟩
  rw [hwrap, kept_before_wrap hleads.mem_around houter, before_around hleads]
  rfl

theorem sameFormatting_after (hnd : (ids (wrap up (l ++ cons b bs r))).Nodup)
    (hlt : ∀ i ∈ ids (wrap up (l ++ cons b bs r)), i.number < fresh)
    (hopen : ∀ fr ∈ up, fr.value.label.isProperty = false)
    (hbehind : ∀ fr ∈ up, properties fr.after = nil) (hr : properties r = nil) (hfr : fr ∈ up) :
    SameFormatting fr.value (wrap up (l ++ cons b bs r))
      (Division.after b.id fresh (wrap up (l ++ cons b bs r))).kept := by
  obtain ⟨inner, outer, hwrap, hinner, hleads, houter, hsub⟩ := exists_level hnd hfr
  have h := preserves_after (hsub.nodup hnd) (fun i hi => hlt i (hsub.mem hi))
    (fun fr' hfr' => hopen fr' (hinner fr' hfr')) (fun fr' hfr' => hbehind fr' (hinner fr' hfr')) hr
  refine ⟨outer, fr.before, _, fr.after, outer.map Frame.endHere, fr.before, _, nil, hwrap, ?_, h.kept⟩
  rw [hwrap, kept_after_wrap hleads.mem_around houter, after_around hleads]
  rfl

end Spot

/-! ## Dividing in a document -/

namespace Xml.Document

variable {d d' : Document} {container n : NodeId} {as bs parts lower : Forest Node} {a b : Node}
  {below : Division} {part : Option NodeId}

/-- The trees below `n` that only carry formatting. -/
def formatting (d : Document) (n : NodeId) : Forest Node :=
  properties (d.treeAt n).firstChildren

/-- The nodes from the parent of `place` up to `container`. -/
def way (d : Document) (container place : NodeId) : List NodeId :=
  (d.ancestors place).filter fun n => n = container ∨ n ∈ d.descendants container

/-- Dividing `container` at `place` into itself and `part` has kept the formatting of both. -/
structure KeepsFormatting (d d' : Document) (container place : NodeId) (part : Option NodeId) : Prop where
  /-- The nodes on the way have their formatting as it was. -/
  kept : ∀ n ∈ d.way container place, d'.label? n = d.label? n ∧ d'.formatting n = d.formatting n
  /-- The new nodes that are not in formatting are counterparts of nodes on the way, with copies of
  their formatting. -/
  copied : ∀ t ∈ part, Throughout (fun node cs => node.id ∉ d.ids → ∃ q ∈ d.way container place,
    d.label? q = some node.label ∧ labels (properties cs) = labels (d.formatting q)) (d'.treeAt t)
  /-- If there is no new element and there was no empty text, nothing has changed. -/
  unchanged : part = none → (∀ n ∈ d.descendants container, d.label? n ≠ some (.text "")) →
    ∀ n ∈ d.ids, d'.treeAt n = d.treeAt n

theorem formatting_of_tree (ht : d.treeAt n = tree a as) : d.formatting n = properties as := by
  rw [formatting, ht]
  rfl

/-- A node of a tree that has the place below it is on the way. -/
theorem WellFormed.mem_way (wf : d.WellFormed) {up : List (Forest.Frame Node)} {l r qs : Forest Node}
    {q : Node} (ht : d.treeAt a.id = tree a as) (hspot : tree a as = wrap up (l ++ cons q qs r))
    (hplace : place ∈ Xml.ids qs) : q.id ∈ d.way a.id place ∧ d.treeAt q.id = tree q qs := by
  have hnd := wf.nodup_treeAt a.id
  have hq : q.id ∈ Xml.ids (d.treeAt a.id) := by
    rw [ht, hspot, ids_wrap]
    simp
  have htq : d.treeAt q.id = tree q qs := by
    rw [← wf.treeAt_treeAt hq, treeAt_spot hnd (ht.trans hspot)]
  have hne : place ≠ q.id := by
    have hndq := wf.nodup_treeAt q.id
    rw [htq, ids_tree, List.nodup_cons] at hndq
    exact fun he => hndq.1 (he ▸ hplace)
  have hanc := wf.isAncestor_of_mem (n := q.id) (m := place) (by simp [htq, hplace]) hne
  refine ⟨List.mem_filter.mpr ⟨by simpa [isAncestor] using hanc, ?_⟩, htq⟩
  rw [ht, ids_tree, List.mem_cons] at hq
  simpa [descendants_of_tree ht] using hq

theorem WellFormed.mem_way_self (wf : d.WellFormed) (ht : d.treeAt a.id = tree a as)
    (hplace : place ∈ Xml.ids as) : a.id ∈ d.way a.id place := by
  have hspot : tree a as = wrap [] (nil ++ cons a as nil) := rfl
  exact (wf.mem_way ht hspot hplace).1

/-- Putting back the tree that a node has. -/
theorem WellFormed.replace_treeAt (wf : d.WellFormed) (ht : d.treeAt container = tree a as) (n : NodeId) :
    ((d.treeAt n).replace (·.id == container) fun _ _ => tree a as) = d.treeAt n := by
  by_cases hmem : container ∈ Xml.ids (d.treeAt n)
  · obtain ⟨up, l, node, cs, r, hspot, rfl⟩ := exists_spot hmem
    have hnd := wf.nodup_treeAt n
    have htree := treeAt_spot hnd hspot
    rw [wf.treeAt_treeAt hmem, ht] at htree
    rw [replace_spot hnd hspot, htree, hspot]
    rfl
  · exact replace_eq_self_of_not_mem hmem

/-- The formatting of the parts of a division, from what is known on the level below `container`. -/
theorem Settles.keepsFormatting {up : List (Forest.Frame Node)} {l r : Forest Node}
    (h : d.Settles d' a.id parts) (wf : d.WellFormed)
    (ht : d.treeAt a.id = tree a as) (hspot : as = wrap up (l ++ cons b bs r))
    (ha : a.label.isProperty = false) (hpreserves : Preserves b.id d.fresh as below)
    (hsame : ∀ fr ∈ up, SameFormatting fr.value as below.kept)
    (hp : labels (properties p) = labels (properties as))
    (hgone : gone = below.lower ++ below.moved ∨ gone = below.moved ++ below.lower)
    (hK : Labelled (· ≠ .text "") as → Labelled (· ≠ .text "") (below.lower ++ below.moved))
    (hlower : (below.raise a p gone).lower = lower)
    (hparts : parts = tree a below.kept ++ lower ∨ parts = lower ++ tree a below.kept) :
    d.KeepsFormatting d' a.id b.id (lower.roots.map Node.id).head? := by
  have wf' := h.grows.wellFormed
  have hplace : b.id ∈ Xml.ids as := by simp [hspot, ids_wrap]
  have ht' : d'.treeAt a.id = tree a below.kept := by
    rcases hparts with rfl | rfl
    · exact h.treeAt_first
    · exact h.treeAt_last
  obtain ⟨-, hcounterparts⟩ := hpreserves.raise hplace ha hp hgone nil nil
  rw [hlower] at hcounterparts
  constructor
  · intro n hn
    obtain ⟨hanc, hn⟩ := List.mem_filter.mp hn
    rw [decide_eq_true_eq, descendants_of_tree ht] at hn
    rcases hn with rfl | hn
    · rw [(wf.label?_of_tree ht).1, (wf'.label?_of_tree ht').1, formatting_of_tree ht, formatting_of_tree ht']
      exact ⟨rfl, hpreserves.kept⟩
    · rw [wf.mem_ancestors_iff (hspot ▸ ht) (hspot ▸ hn)] at hanc
      obtain ⟨fr, hfr, rfl⟩ := List.mem_map.mp hanc
      obtain ⟨u, l₁, qs, r₁, u', l₂, qs', r₂, hold, hkept, hproperties⟩ := hsame fr hfr
      have htq := wf.treeAt_spot_below (hold ▸ ht)
      have htq' := wf'.treeAt_spot_below (hkept ▸ ht')
      rw [(wf.label?_of_tree htq).1, (wf'.label?_of_tree htq').1, formatting_of_tree htq,
        formatting_of_tree htq']
      exact ⟨rfl, hproperties⟩
  · intro t htail
    obtain ⟨hnil, -⟩ | ⟨cs, htree, -⟩ := lower_cases below a p gone
    · rw [hlower] at hnil
      simp [hnil, roots] at htail
    · rw [hlower] at htree
      obtain rfl : (⟨below.fresh⟩ : NodeId) = t := by simpa [htree] using htail
      have htl : d'.treeAt ⟨below.fresh⟩ = lower := by
        rw [htree] at hparts ⊢
        rcases hparts with rfl | rfl
        · exact h.treeAt_last
        · exact h.treeAt_first
      rw [htl]
      refine hcounterparts.mono fun node hnode cs hcounterpart hnew => ?_
      have hmem : node.id ∈ d'.ids :=
        wf'.mem_ids_of_mem_treeAt (n := ⟨below.fresh⟩) (htl ▸ List.mem_map_of_mem hnode)
      obtain ⟨u, l₁, q, qs, r₁, hq, hqs, hlabel, hcopies⟩ :=
        hcounterpart ((h.grows.mem_or_fresh _ hmem).resolve_left hnew)
      obtain ⟨hway, htq⟩ := wf.mem_way ht hq hqs
      exact ⟨q.id, hway, by rw [(wf.label?_of_tree htq).1, hlabel], by rw [formatting_of_tree htq, hcopies]⟩
  · intro hnone htexts n hn
    have hnil : lower = nil := by cases lower <;> simp_all [roots]
    have hKas : Labelled (· ≠ .text "") as := by
      refine each_iff_forall.mpr fun node hnode he => ?_
      have hbelow : node ∈ d.nodesBelow a.id := by rwa [nodesBelow, ht]
      refine htexts node.id (List.mem_map_of_mem hbelow) ?_
      rw [wf.label?_of_mem_nodesBelow hbelow, he]
    obtain ⟨hl, hm⟩ := hpreserves.gone_eq_nil (hK hKas) hgone (hlower.trans hnil)
    have hall : parts = tree a as := by
      rw [hpreserves.unchanged hKas hl hm, hnil] at hparts
      simpa using hparts
    by_cases hin : n ∈ Xml.ids (d.treeAt a.id)
    · rw [h.treeAt_eq n (by rwa [hall, ← ht]), hall, ← ht, wf.treeAt_treeAt hin]
    · rw [h.treeAt_outside n hn hin, hall, wf.replace_treeAt ht]

section Spot

variable {up : List (Forest.Frame Node)} {l r cs : Forest Node} {c : Node}

theorem WellFormed.isProperty_of_tree (wf : d.WellFormed) (ht : d.treeAt n = tree c cs) :
    d.isProperty n = c.label.isProperty := by
  rw [isProperty, (wf.label?_of_tree ht).1]
  rfl

/-- The parent of a node that is the place or on the way to it is on the way. -/
theorem WellFormed.exists_parent_of_spot (wf : d.WellFormed)
    (ht : d.treeAt a.id = tree a (wrap up (l ++ cons c cs r))) (hplace : place ∈ Xml.ids (tree c cs)) :
    ∃ q : Node, q.id ∈ d.way a.id place ∧ d.treeAt q.id = tree q (l ++ cons c cs r) := by
  rw [ids_tree, List.mem_cons] at hplace
  have hmem : place ∈ Xml.ids (l ++ cons c cs r) := by
    simp only [ids_append, ids_cons, List.mem_append, List.mem_cons]
    tauto
  cases up with
  | nil => exact ⟨a, wf.mem_way_self ht hmem, ht⟩
  | cons fr up => exact ⟨fr.value, wf.mem_way ht (wrap_append up [frameOf a] _).symm hmem⟩

/-- The nodes on the way to a spot carry no formatting if none on the way of the document does. -/
theorem WellFormed.not_isProperty_of_way (wf : d.WellFormed)
    (ht : d.treeAt a.id = tree a (wrap up (l ++ cons b bs r)))
    (hway : ∀ n ∈ d.way a.id b.id, d.isProperty n = false) :
    a.label.isProperty = false ∧ ∀ fr ∈ up, fr.value.label.isProperty = false := by
  have hmem : b.id ∈ Xml.ids (wrap up (l ++ cons b bs r)) := by simp [ids_wrap]
  constructor
  · rw [← wf.isProperty_of_tree ht, hway _ (wf.mem_way_self ht hmem)]
  · intro fr hfr
    obtain ⟨inner, outer, rfl⟩ := List.append_of_mem hfr
    have hspot : tree a (wrap (inner ++ fr :: outer) (l ++ cons b bs r)) =
        wrap (outer ++ [frameOf a]) (fr.before ++ cons fr.value (wrap inner (l ++ cons b bs r)) fr.after) := by
      rw [wrap_append, wrap_append]
      rfl
    have hbelow : b.id ∈ Xml.ids (wrap inner (l ++ cons b bs r)) := by simp [ids_wrap]
    obtain ⟨hq, htq⟩ := wf.mem_way ht hspot hbelow
    rw [← wf.isProperty_of_tree htq, hway _ hq]

/-- Before a place, both halves have the formatting of before. -/
theorem divideBefore_keepsFormatting (wf : d.WellFormed) (hplace : place ∈ d.descendants container)
    (hway : ∀ n ∈ d.way container place, d.isProperty n = false) :
    ∃ head, (d.divideBefore container place).1 = head.toList ++ [container] ∧
      d.KeepsFormatting (d.divideBefore container place).2 container place head := by
  obtain ⟨a, up, l, b, bs, r, rfl, rfl, ht⟩ := wf.exists_spot_below hplace
  obtain ⟨ha, hopen⟩ := wf.not_isProperty_of_way ht hway
  have hnd := wf.nodup_treeAt a.id
  rw [ht, ids_tree, List.nodup_cons] at hnd
  have hlt := fun i hi => (wf.lt_fresh_of_tree ht i hi).2
  have hmem : b.id ∈ Xml.ids (wrap up (l ++ cons b bs r)) := by simp [ids_wrap]
  have hpreserves := preserves_before hnd.2 hlt hopen
  obtain ⟨hresult, hsettles⟩ := wf.settles_before ht hmem rfl
  refine ⟨_, hresult.trans (congrArg (· ++ [a.id]) (toList_head?_lower ..).symm), hsettles.keepsFormatting wf
    ht rfl ha hpreserves (fun fr hfr => sameFormatting_before hnd.2 hlt hopen hfr) (congrArg labels hpreserves.kept)
    (.inr rfl) (labelled_gone_before b.id d.fresh) rfl (.inr rfl)⟩

/-- Whether no formatting stands behind the way from `container` to `place`. -/
def ClearBehind (d : Document) (container place : NodeId) : Prop :=
  ∀ q ∈ d.way container place, ∀ u c v, d.children q = u ++ c :: v → c ∈ place :: d.ancestors place →
    ∀ m ∈ v, d.isProperty m = false

theorem ClearBehind.properties_eq_nil (h : d.ClearBehind a.id place) (wf : d.WellFormed)
    (ht : d.treeAt a.id = tree a (wrap up (l ++ cons c cs r))) (hplace : place ∈ Xml.ids (tree c cs)) :
    properties r = nil := by
  obtain ⟨q, hq, htq⟩ := wf.exists_parent_of_spot ht hplace
  have hc : c.id ∈ place :: d.ancestors place := by
    by_cases hne : place = c.id
    · simp [hne]
    · have htc := wf.treeAt_spot_below ht
      have hanc := wf.isAncestor_of_mem (n := c.id) (htc ▸ hplace) hne
      exact List.mem_cons_of_mem _ (by simpa [isAncestor] using hanc)
  refine properties_eq_nil_of_roots fun node hnode => ?_
  have hchildren : d.children q.id = l.roots.map Node.id ++ c.id :: r.roots.map Node.id := by
    rw [children_of_tree htq]
    simp [roots]
  have hlabel : d.label? node.id = some node.label := by
    refine wf.label?_of_mem_treeAt (n := q.id) ?_
    rw [htq]
    simp [tree, toList, (roots_sublist r).mem hnode]
  have hclear := h q.id hq _ _ _ hchildren hc node.id (List.mem_map_of_mem hnode)
  rwa [isProperty, hlabel] at hclear

/-- After a place, both halves have the formatting of before if none stands behind the way. -/
theorem divideAfter_keepsFormatting (wf : d.WellFormed) (hplace : place ∈ d.descendants container)
    (hway : ∀ n ∈ d.way container place, d.isProperty n = false) (hclear : d.ClearBehind container place) :
    ∃ tail, (d.divideAfter container place).1 = container :: tail.toList ∧
      d.KeepsFormatting (d.divideAfter container place).2 container place tail := by
  obtain ⟨a, up, l, b, bs, r, rfl, rfl, ht⟩ := wf.exists_spot_below hplace
  obtain ⟨ha, hopen⟩ := wf.not_isProperty_of_way ht hway
  have hnd := wf.nodup_treeAt a.id
  rw [ht, ids_tree, List.nodup_cons] at hnd
  have hlt := fun i hi => (wf.lt_fresh_of_tree ht i hi).2
  have hmem : b.id ∈ Xml.ids (wrap up (l ++ cons b bs r)) := by simp [ids_wrap]
  have hr : properties r = nil := hclear.properties_eq_nil wf ht (by simp)
  have hbehind : ∀ fr ∈ up, properties fr.after = nil := by
    intro fr hfr
    obtain ⟨inner, outer, hwrap, -, hleads, -⟩ := exists_level hnd.2 hfr
    exact hclear.properties_eq_nil wf (hwrap ▸ ht) (by simp [hleads.mem])
  have hpreserves := preserves_after hnd.2 hlt hopen hbehind hr
  obtain ⟨hresult, hsettles⟩ := wf.settles_after ht hmem rfl
  refine ⟨_, hresult.trans (congrArg (a.id :: ·) (toList_head?_lower ..).symm), hsettles.keepsFormatting wf
    ht rfl ha hpreserves (fun fr hfr => sameFormatting_after hnd.2 hlt hopen hbehind hr hfr)
    (by rw [properties_append, hpreserves.kept, hpreserves.moved, append_nil])
    (.inl rfl) (labelled_gone_after b.id d.fresh) rfl (.inl rfl)⟩

/-- A paragraph with its formatting behind its run. -/
def formattedBehind : Document :=
  .ofTree ⟨"w:p", []⟩ <| tree (.element ⟨"w:r", []⟩) (tree (.element ⟨"w:t", []⟩) (tree (.text "a") nil)) ++
    tree (.element ⟨"w:pPr", []⟩) nil

/-- Nothing but formatting stands behind the text. There is no new element, and the formatting is lost. -/
theorem divideAfter_loses_formatting :
    formattedBehind.WellFormed ∧ ⟨2⟩ ∈ formattedBehind.descendants ⟨0⟩ ∧
      (∀ n ∈ ⟨2⟩ :: formattedBehind.way ⟨0⟩ ⟨2⟩, formattedBehind.isProperty n = false) ∧
      (∀ n ∈ formattedBehind.ids, formattedBehind.label? n ≠ some (.text "")) ∧
      (formattedBehind.divideAfter ⟨0⟩ ⟨2⟩).1 = [⟨0⟩] ∧
      formattedBehind.serialize = "<w:p><w:r><w:t>a</w:t></w:r><w:pPr/></w:p>" ∧
      (formattedBehind.divideAfter ⟨0⟩ ⟨2⟩).2.serialize = "<w:p><w:r><w:t>a</w:t></w:r></w:p>" ∧
      Xml.ids (formattedBehind.formatting ⟨0⟩) = [⟨4⟩] ∧
      (formattedBehind.divideAfter ⟨0⟩ ⟨2⟩).2.formatting ⟨0⟩ = nil :=
  ⟨wellFormed_ofTree _ _, by decide +kernel⟩

end Spot

end Xml.Document

end WordTemplate
