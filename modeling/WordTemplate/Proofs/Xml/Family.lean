import WordTemplate.Proofs.Forest.Each
import WordTemplate.Proofs.Word.Detachment
import WordTemplate.Proofs.Xml.Scope

/-!
# Parents and siblings

Where a node stands among the children of its parent, and that trees side by side have no node in
common.
-/

namespace WordTemplate.Xml.Document

open Forest

variable {d : Document} {n m p : NodeId} {A : Node} {X : Forest Node}

theorem WellFormed.ne_of_parent? (wf : d.WellFormed) (h : d.parent? n = some m) : m ≠ n := by
  obtain ⟨up, l, node, cs, r, htrees, rfl⟩ := exists_spot (wf.mem_ids_of_parent? (by rw [h]; rfl))
  rw [parent?_eq wf htrees] at h
  cases up with
  | nil => simp at h
  | cons fr up =>
    obtain rfl : fr.value.id = m := by simpa using h
    simpa using (id_ne_of_spot wf.ids_nodup htrees).1 fr.value (by simp [opening])

/-- Nothing is in the tree at a node that is above the node. -/
theorem WellFormed.parent?_not_mem (wf : d.WellFormed) (h : d.parent? n = some m) :
    m ∉ Xml.ids (d.treeAt n) := by
  intro hmem
  have hne := wf.ne_of_parent? h
  exact wf.not_mem_treeAt hmem hne
    (wf.mem_of_parent?_mem h (wf.mem_treeAt_self (wf.mem_ids_of_mem_treeAt hmem)))

/-- A node stands among the children of its parent. -/
theorem WellFormed.exists_of_parent? (wf : d.WellFormed) (h : d.parent? n = some p) :
    ∃ A l a as r, d.treeAt p = tree A (l ++ cons a as r) ∧ d.treeAt n = tree a as ∧ a.id = n := by
  obtain ⟨up, l, node, cs, r, htrees, rfl⟩ := exists_spot (wf.mem_ids_of_parent? (by rw [h]; rfl))
  rw [parent?_eq wf htrees] at h
  cases up with
  | nil => simp at h
  | cons fr up =>
    obtain rfl : fr.value.id = p := by simpa using h
    exact ⟨fr.value, l, node, cs, r, treeAt_eq wf (trees_eq_of_cons htrees), treeAt_eq wf htrees, rfl⟩

theorem WellFormed.parent?_of_mem_roots (wf : d.WellFormed) (hp : d.treeAt p = tree A X)
    (h : n ∈ X.roots.map Node.id) : d.parent? n = some p := by
  obtain ⟨a, ha, rfl⟩ := List.mem_map.mp h
  obtain ⟨-, rfl⟩ := wf.mem_ids_of_treeAt hp
  obtain ⟨l, as, r, rfl⟩ := exists_of_mem_roots ha
  have hspot : d.treeAt A.id = tree A (wrap [] (l ++ cons a as r)) := hp
  obtain ⟨l₀, r₀, outer, htrees, -⟩ := wf.exists_below hspot
  rw [parent?_eq wf htrees]
  rfl

/-- The tree of a child. -/
theorem WellFormed.treeAt_child {a : Node} {l as r : Forest Node} (wf : d.WellFormed)
    (hp : d.treeAt p = tree A (l ++ cons a as r)) : d.treeAt a.id = tree a as := by
  have hspot : d.treeAt p = wrap [⟨nil, A, nil⟩] (l ++ cons a as r) := hp
  exact wf.treeAt_of_spot hspot

theorem mem_siblings_of_mem_between {last : NodeId} (h : n ∈ d.between m last) : n ∈ d.siblings m := by
  rw [between] at h
  split at h
  · split at h
    · exact List.mem_of_mem_take (List.mem_of_mem_drop h)
    · cases h
  · cases h

theorem WellFormed.mem_treeAt_of_isAncestor (wf : d.WellFormed) (h : d.isAncestor n m = true) :
    m ∈ Xml.ids (d.treeAt n) := by
  rw [isAncestor, List.contains_iff_mem] at h
  have hm : m ∈ d.ids := by
    by_contra hm
    simp [wf.ancestors, above?_eq_none (any_id_eq_false_iff.mpr hm)] at h
  obtain ⟨up, l, node, cs, r, htrees, rfl⟩ := exists_spot hm
  rw [ancestors_eq wf htrees] at h
  obtain ⟨fr, hfr, rfl⟩ := List.mem_map.mp h
  obtain ⟨inner, outer, rfl⟩ := List.append_of_mem hfr
  rw [wrap_append] at htrees
  rw [treeAt_eq wf (trees_eq_of_cons htrees), ids_tree, ids_wrap]
  simp

end WordTemplate.Xml.Document
