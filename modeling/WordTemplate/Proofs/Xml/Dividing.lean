import WordTemplate.Proofs.Xml.Levels

/-!
# Dividing an element of a document

Dividing `container` puts its parts in its place: `container` with what it keeps, and a new element
with the rest if that is not empty. `Settles` says what this means for the document: the parts are
found as they are, `container` is in the place where it was, and the other nodes have the trees that
they had.

* `settles_after`, `settles_before`: what the two divisions return, and that the document is divided.
* `Settles.nextSibling?_eq`, `Settles.previousSibling?_eq`: the new element is beside `container`.
-/

namespace WordTemplate.Xml

open Forest

variable {d d' : Document} {n m p container place : NodeId} {as parts left right : Forest Node} {a : Node}
  {δ : Division}

namespace Document

/-! ## Neighbours among the children of a node -/

section Neighbours

variable {u v : List NodeId}

theorem WellFormed.siblings_of_mem_children (wf : d.WellFormed) (h : n ∈ d.children p) :
    d.siblings n = d.children p := by
  rw [siblings, wf.parent?_eq_some_iff.mpr h]
  rfl

theorem WellFormed.index?_of_children (wf : d.WellFormed) (h : d.children p = u ++ n :: v) :
    d.index? n = some u.length := by
  have hnd := wf.nodup_children p
  rw [h, List.nodup_append] at hnd
  rw [index?, wf.siblings_of_mem_children (p := p) (by simp [h]), h, List.idxOf?_eq_some_iff]
  refine ⟨by simp, by simp, fun j hj => ?_⟩
  rw [List.getElem_append_left hj]
  exact fun he => hnd.2.2 _ (List.getElem_mem _) _ List.mem_cons_self he

theorem WellFormed.nextSibling?_of_children (wf : d.WellFormed) (h : d.children p = u ++ n :: m :: v) :
    d.nextSibling? n = some m := by
  rw [nextSibling?, wf.index?_of_children h, wf.siblings_of_mem_children (p := p) (by simp [h]), h]
  simp

theorem WellFormed.previousSibling?_of_children (wf : d.WellFormed)
    (h : d.children p = u ++ m :: n :: v) : d.previousSibling? n = some m := by
  have h' : d.children p = (u ++ [m]) ++ n :: v := by simpa using h
  rw [previousSibling?, wf.index?_of_children h', wf.siblings_of_mem_children (p := p) (by simp [h]), h]
  simp

end Neighbours

/-! ## The parts in the document -/

/-- In `d'` the forest `parts` has come in the place of `container`. -/
structure Settles (d d' : Document) (container : NodeId) (parts : Forest Node) : Prop where
  grows : d.Grows d'
  nodup : (Xml.ids parts).Nodup
  treeAt_eq : ∀ m ∈ Xml.ids parts, d'.treeAt m = parts.treeAt (·.id == m)
  treeAt_outside : ∀ m ∈ d.ids, m ∉ Xml.ids (d.treeAt container) →
    d'.treeAt m = (d.treeAt m).replace (·.id == container) fun _ _ => parts

theorem WellFormed.settles_settle {gone : Forest Node} (wf : d.WellFormed)
    (ht : d.treeAt container = tree a as) (hδ : Conserves (tree a as) d.fresh δ gone)
    (hparts : (Xml.ids parts).Perm (Xml.ids (δ.kept ++ gone))) :
    d.Settles (d.settle container δ parts) container parts := by
  have hperm : (Xml.ids (parts ++ δ.dropped)).Perm
      (Xml.ids (tree a as) ++ (List.range' d.fresh (δ.fresh - d.fresh)).map NodeId.mk) := by
    refine List.Perm.trans ?_ hδ.perm
    rw [← append_assoc, ids_append, ids_append (δ.kept ++ gone)]
    exact hparts.append_right _
  obtain ⟨hgrows, houtside⟩ := wf.settle_spec ht hδ.fresh_le hperm
  have hnd := hδ.nodup (ht ▸ wf.nodup_treeAt container) fun i hi =>
    wf.lt_fresh i (wf.mem_ids_of_mem_treeAt (ht ▸ hi))
  rw [← append_assoc, ids_append] at hnd
  exact ⟨hgrows, hparts.nodup_iff.mpr (List.nodup_append.mp hnd).1,
    fun m hm => wf.treeAt_settle_of_mem ht hgrows hm, by rwa [ht]⟩

/-- The tree at a node of one of the parts. -/
theorem Settles.treeAt_part {f : Forest Node} (h : d.Settles d' container (left ++ (f ++ right)))
    (hm : m ∈ Xml.ids f) : d'.treeAt m = f.treeAt (·.id == m) := by
  rw [h.treeAt_eq m (by simp [hm])]
  have hnd : (Xml.ids (wrap [] (left ++ (f ++ right)))).Nodup := h.nodup
  exact Xml.treeAt_part hnd hm

theorem Settles.treeAt_root {b : Node} {bs : Forest Node}
    (h : d.Settles d' container (left ++ (tree b bs ++ right))) : d'.treeAt b.id = tree b bs := by
  rw [h.treeAt_part (by simp), tree, treeAt_cons]
  simp [tree]

theorem Settles.treeAt_first {b : Node} {bs : Forest Node}
    (h : d.Settles d' container (tree b bs ++ right)) : d'.treeAt b.id = tree b bs := by
  rw [← nil_append (tree b bs ++ right)] at h
  exact h.treeAt_root

theorem Settles.treeAt_last {b : Node} {bs : Forest Node}
    (h : d.Settles d' container (left ++ tree b bs)) : d'.treeAt b.id = tree b bs := by
  rw [← append_nil (tree b bs)] at h
  exact h.treeAt_root

/-- The children of the parent, with the parts in the place of `container`. -/
theorem Settles.exists_children (h : d.Settles d' container parts) (wf : d.WellFormed)
    (hp : d.parent? container = some p) :
    ∃ u v, d'.children p = u ++ (parts.roots.map Node.id ++ v) := by
  have hmem := wf.parent?_eq_some_iff.mp hp
  obtain ⟨a, as, rfl, ht⟩ := wf.exists_treeAt (wf.mem_ids_of_mem_children hmem)
  have hat := h.treeAt_outside p (wf.mem_ids_of_children hmem) (wf.parent?_not_mem hp)
  have hnd := wf.nodup_children p
  obtain ⟨u, v, huv⟩ := List.append_of_mem hmem
  rw [huv, List.nodup_append, List.nodup_cons] at hnd
  refine ⟨u, v, ?_⟩
  rw [wf.children_of_replace hat (wf.ne_of_parent? hp) ht, huv, List.flatMap_append,
    List.flatMap_cons, if_pos rfl, flatMap_eq_self fun hu => hnd.2.2 _ hu _ List.mem_cons_self rfl,
    flatMap_eq_self hnd.2.1.1]

theorem Settles.nextSibling?_eq {b c : Node} {bs cs : Forest Node}
    (h : d.Settles d' container (tree b bs ++ tree c cs)) (wf : d.WellFormed)
    (hp : (d.parent? container).isSome) : d'.nextSibling? b.id = some c.id := by
  obtain ⟨p, hp⟩ := Option.isSome_iff_exists.mp hp
  obtain ⟨u, v, hch⟩ := h.exists_children wf hp
  exact h.grows.wellFormed.nextSibling?_of_children (v := v) (by simpa using hch)

theorem Settles.previousSibling?_eq {b c : Node} {bs cs : Forest Node}
    (h : d.Settles d' container (tree b bs ++ tree c cs)) (wf : d.WellFormed)
    (hp : (d.parent? container).isSome) : d'.previousSibling? c.id = some b.id := by
  obtain ⟨p, hp⟩ := Option.isSome_iff_exists.mp hp
  obtain ⟨u, v, hch⟩ := h.exists_children wf hp
  exact h.grows.wellFormed.previousSibling?_of_children (v := v) (by simpa using hch)

/-! ## The two divisions -/

/-- The tree of a node with others below it. -/
theorem WellFormed.exists_treeAt_of_mem_descendants (wf : d.WellFormed)
    (h : place ∈ d.descendants container) :
    ∃ a as, a.id = container ∧ d.treeAt container = tree a as ∧ place ∈ Xml.ids as := by
  obtain ⟨a, as, hid, ht⟩ := wf.exists_treeAt (n := container) (by
    by_contra hout
    simp [descendants, nodesBelow, wf.treeAt_eq_nil hout, firstChildren, toList] at h)
  exact ⟨a, as, hid, ht, by rwa [descendants, nodesBelow, ht] at h⟩

theorem descendants_of_tree (ht : d.treeAt container = tree a as) :
    d.descendants container = Xml.ids as := by
  rw [descendants, nodesBelow, ht]
  rfl

/-- The frame of a tree with nothing beside it. -/
abbrev frameOf (a : Node) : Forest.Frame Node :=
  ⟨nil, a, nil⟩

theorem WellFormed.leadsTo_frameOf (wf : d.WellFormed) (ht : d.treeAt a.id = tree a as)
    (hplace : place ∈ Xml.ids as) : LeadsTo (frameOf a) place as := by
  have hnd := wf.nodup_treeAt a.id
  rw [ht, ids_tree, List.nodup_cons] at hnd
  exact ⟨hplace, by simp, fun he => hnd.1 (he ▸ hplace)⟩

/-- Dividing an element after a node below it. -/
theorem WellFormed.settles_after (wf : d.WellFormed) (ht : d.treeAt a.id = tree a as)
    (hplace : place ∈ Xml.ids as)
    (hδ : δ = (Division.after place d.fresh as).levelAfter (frameOf a)) :
    (d.divideAfter a.id place).1 = a.id :: δ.lower.roots.map Node.id ∧
      d.Settles (d.divideAfter a.id place).2 a.id (δ.kept ++ δ.lower) := by
  obtain ⟨hnot, -⟩ | ⟨δ, -, rfl, -, hmoved, heq⟩ := wf.divideAfter_cases ht place
  · exact absurd hplace hnot
  · have hlevel : Division.after place d.fresh (tree a as) = _ := after_around (wf.leadsTo_frameOf ht hplace)
    have hconserves := conserves_after place d.fresh (tree a as)
    rw [hmoved, append_nil] at hconserves
    rw [heq, hδ, ← hlevel]
    exact ⟨rfl, wf.settles_settle ht hconserves (.refl _)⟩

/-- Dividing an element before a node below it. -/
theorem WellFormed.settles_before (wf : d.WellFormed) (ht : d.treeAt a.id = tree a as)
    (hplace : place ∈ Xml.ids as)
    (hδ : δ = (Division.before place d.fresh as).levelBefore (frameOf a)) :
    (d.divideBefore a.id place).1 = δ.lower.roots.map Node.id ++ [a.id] ∧
      d.Settles (d.divideBefore a.id place).2 a.id (δ.lower ++ δ.kept) := by
  obtain ⟨hnot, -⟩ | ⟨δ, -, rfl, -, hmoved, heq⟩ := wf.divideBefore_cases ht place
  · exact absurd hplace hnot
  · have hlevel : Division.before place d.fresh (tree a as) = _ := before_around (wf.leadsTo_frameOf ht hplace)
    have hconserves := conserves_before place d.fresh (tree a as)
    rw [hmoved, nil_append] at hconserves
    rw [heq, hδ, ← hlevel]
    refine ⟨rfl, wf.settles_settle ht hconserves ?_⟩
    simp only [ids_append]
    exact List.perm_append_comm

end Document

end WordTemplate.Xml
