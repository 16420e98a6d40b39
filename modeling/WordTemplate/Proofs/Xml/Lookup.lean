import WordTemplate.Proofs.Xml.Spot

/-!
# Lookup after edits

How an edit changes the tree at every node of a well-formed document, and that the document stays
well-formed. `Grows` says that no identifier is lost and that those that come in are new.

* `treeAt_detach`, `treeAt_relabel`, `treeAt_append`, `treeAt_insertAfter`, `treeAt_insertBefore`,
  `treeAt_takeChildren`, `treeAt_addCopies`: the tree at a node after an edit, read off the tree
  before.
* `exists_below`: where a node stands in the document, from where it stands in the tree at another
  node.
-/

namespace WordTemplate.Xml

open Forest

namespace Document

/-- No identifier is lost from `d` to `d'`, and those that came in are new. -/
structure Grows (d d' : Document) : Prop where
  wellFormed : d'.WellFormed
  fresh_le : d.fresh ≤ d'.fresh
  mem_ids : ∀ m ∈ d.ids, m ∈ d'.ids
  mem_or_fresh : ∀ m ∈ d'.ids, m ∈ d.ids ∨ d.fresh ≤ m.number
  root_eq : d'.root = d.root

namespace Grows

variable {d d₁ d₂ : Document}

theorem refl (wf : d.WellFormed) : d.Grows d :=
  ⟨wf, Nat.le_refl _, fun _ h => h, fun _ h => .inl h, rfl⟩

theorem trans (h₁ : d.Grows d₁) (h₂ : d₁.Grows d₂) : d.Grows d₂ where
  wellFormed := h₂.wellFormed
  fresh_le := Nat.le_trans h₁.fresh_le h₂.fresh_le
  mem_ids m hm := h₂.mem_ids m (h₁.mem_ids m hm)
  mem_or_fresh m hm := by
    rcases h₂.mem_or_fresh m hm with h | h
    · exact h₁.mem_or_fresh m h
    · exact .inr (Nat.le_trans h₁.fresh_le h)
  root_eq := h₂.root_eq.trans h₁.root_eq

end Grows

variable {d : Document} {n m : NodeId} {node : Node} {cs : Forest Node}

theorem WellFormed.grows_remake (wf : d.WellFormed) {f : Forest Node} (k : Nat)
    (h : (Xml.ids f).Perm (Xml.ids d.trees ++ (List.range' d.fresh k).map NodeId.mk)) :
    d.Grows (d.remake f (d.fresh + k)) where
  wellFormed := wf.remake k h
  fresh_le := Nat.le_add_right _ _
  mem_ids _ hm := h.mem_iff.mpr (List.mem_append_left _ hm)
  mem_or_fresh m hm := by
    rcases List.mem_append.mp (h.mem_iff.mp hm) with hm | hm
    · exact .inl hm
    · obtain ⟨i, hi, rfl⟩ := List.mem_map.mp hm
      exact .inr (List.mem_range'_1.mp hi).1
  root_eq := rfl

theorem WellFormed.grows_of_perm (wf : d.WellFormed) {f : Forest Node}
    (h : (Xml.ids f).Perm (Xml.ids d.trees)) : d.Grows (d.remake f d.fresh) :=
  wf.grows_remake 0 (by simpa using h)

theorem WellFormed.exists_treeAt (wf : d.WellFormed) (h : n ∈ d.ids) :
    ∃ node cs, node.id = n ∧ d.treeAt n = tree node cs := by
  rw [wf.treeAt]
  exact Xml.exists_treeAt h

theorem WellFormed.mem_ids_of_treeAt (wf : d.WellFormed) (h : d.treeAt n = tree node cs) :
    n ∈ d.ids ∧ node.id = n := by
  rw [wf.treeAt] at h
  exact Xml.mem_ids_of_treeAt h

theorem WellFormed.treeAt_eq_nil (wf : d.WellFormed) (h : n ∉ d.ids) : d.treeAt n = nil := by
  rw [wf.treeAt]
  exact treeAt_eq_nil_of_not_mem h

theorem WellFormed.mem_ids_of_mem_treeAt (wf : d.WellFormed) (h : m ∈ Xml.ids (d.treeAt n)) :
    m ∈ d.ids := by
  rw [wf.treeAt] at h
  exact Xml.mem_ids_of_mem_treeAt h

theorem WellFormed.nodup_treeAt (wf : d.WellFormed) (n : NodeId) :
    (Xml.ids (d.treeAt n)).Nodup := by
  rw [wf.treeAt]
  exact wf.ids_nodup.sublist ids_treeAt_sublist

theorem WellFormed.treeAt_treeAt (wf : d.WellFormed) (h : m ∈ Xml.ids (d.treeAt n)) :
    (d.treeAt n).treeAt (·.id == m) = d.treeAt m := by
  rw [wf.treeAt] at h ⊢
  rw [wf.treeAt, Xml.treeAt_treeAt wf.ids_nodup h]

/-- A spot in the tree at a node is a spot in the document. -/
theorem WellFormed.exists_below (wf : d.WellFormed) {up : List (Frame Node)} {f : Forest Node}
    (hn : d.treeAt n = tree node (wrap up f)) :
    ∃ l r outer, d.trees = wrap (up ++ ⟨l, node, r⟩ :: outer) f ∧
      d.ancestors n = outer.map fun fr => fr.value.id := by
  obtain ⟨hmem, rfl⟩ := wf.mem_ids_of_treeAt hn
  obtain ⟨outer, l, node', cs, r, htrees, hid⟩ := exists_spot hmem
  have hat := treeAt_eq wf htrees
  rw [hid, hn] at hat
  cases hat
  exact ⟨l, r, outer, by rw [htrees, wrap_append]; rfl, ancestors_eq wf htrees⟩

theorem WellFormed.parent?_isSome (wf : d.WellFormed) (h : n ∈ Xml.ids (d.treeAt m))
    (hne : n ≠ m) : (d.parent? n).isSome := by
  obtain ⟨node, cs, rfl, ht⟩ := wf.exists_treeAt (n := m) (by
    by_contra hm
    simp [wf.treeAt_eq_nil hm] at h)
  have hcs : n ∈ Xml.ids cs := by simpa [ht, hne] using h
  obtain ⟨up, l, node', cs', r, rfl, rfl⟩ := exists_spot hcs
  obtain ⟨l₀, r₀, outer, htrees, -⟩ := wf.exists_below ht
  rw [parent?_eq wf htrees]
  cases up <;> simp

theorem WellFormed.mem_ids_of_parent? (wf : d.WellFormed) (h : (d.parent? n).isSome) :
    n ∈ d.ids := by
  by_contra hn
  simp [parent?, wf.ancestors, above?_eq_none (any_id_eq_false_iff.mpr hn)] at h

/-- Nodes are not below each other. -/
theorem WellFormed.not_mem_treeAt (wf : d.WellFormed) (h : m ∈ Xml.ids (d.treeAt n))
    (hne : m ≠ n) : n ∉ Xml.ids (d.treeAt m) := by
  intro hn
  obtain ⟨node, cs, rfl, ht⟩ := wf.exists_treeAt (n := n) (by
    by_contra hm
    simp [wf.treeAt_eq_nil hm] at h)
  have hcs : m ∈ Xml.ids cs := by simpa [ht, hne] using h
  obtain ⟨up, l, node', cs', r, rfl, rfl⟩ := exists_spot hcs
  obtain ⟨l₀, r₀, outer, htrees, -⟩ := wf.exists_below ht
  rw [Document.treeAt_eq wf htrees] at hn
  have := wf.nodup_treeAt node.id
  rw [ht, ids_tree, ids_wrap] at this
  refine (List.nodup_cons.mp this).1 ?_
  simp only [ids_tree, List.mem_cons] at hn
  rcases hn with hn | hn <;> simp [hn]

/-- Below a node, the trees are those of the forest of its children. -/
theorem WellFormed.treeAt_children (wf : d.WellFormed) (hn : d.treeAt n = tree node cs)
    (hm : m ∈ Xml.ids cs) : cs.treeAt (·.id == m) = d.treeAt m := by
  have hmem : m ∈ Xml.ids (d.treeAt n) := by simp [hn, hm]
  rw [← wf.treeAt_treeAt hmem, hn, tree, treeAt_cons, any_id_iff.mpr hm]
  have := wf.nodup_treeAt n
  rw [hn, ids_tree, List.nodup_cons] at this
  have hne : node.id ≠ m := fun h => this.1 (h ▸ hm)
  simp [hne]

/-! ## Taking out -/

theorem WellFormed.grows_detach (wf : d.WellFormed) (n : NodeId) : d.Grows (d.detach n) := by
  rw [wf.detach]
  split
  · next h =>
    obtain ⟨node, cs, -, ht⟩ := wf.exists_treeAt (wf.mem_ids_of_parent? h)
    refine wf.grows_of_perm ?_
    rw [ids_append, ht]
    rw [wf.treeAt] at ht
    refine List.perm_append_comm.trans ?_
    have := perm_ids_replace (fun _ _ => nil) ht
    rwa [ids_nil, List.append_nil] at this
  · exact .refl wf

@[simp] theorem WellFormed.fresh_detach (wf : d.WellFormed) (n : NodeId) :
    (d.detach n).fresh = d.fresh := by
  rw [wf.detach]
  split <;> rfl

theorem WellFormed.treeAt_detach (wf : d.WellFormed) (n m : NodeId) :
    (d.detach n).treeAt m = if m = n then d.treeAt n else (d.treeAt m).prune (·.id == n) := by
  have hwf := (wf.grows_detach n).wellFormed
  rw [hwf.treeAt]
  rw [wf.detach] at hwf ⊢
  split
  · next h =>
    rw [if_pos h] at hwf
    have hnd := hwf.ids_nodup
    simp only [remake_trees] at hnd ⊢
    obtain ⟨node, cs, hid, ht⟩ := wf.exists_treeAt (wf.mem_ids_of_parent? h)
    have ht' := ht
    rw [wf.treeAt] at ht'
    rw [treeAt_append, ht]
    by_cases hm : m ∈ Xml.ids (tree node cs)
    · rw [if_pos (any_id_iff.mpr hm), ← ht, wf.treeAt_treeAt (ht ▸ hm)]
      split
      · next he => rw [he]
      · next he => rw [prune_eq_self_of_not_mem (wf.not_mem_treeAt (ht ▸ hm) he)]
    · have hne : m ≠ n := by
        rintro rfl
        simp [hid] at hm
      rw [any_id_eq_false_iff.mpr hm, if_neg hne, wf.treeAt]
      exact treeAt_replace (fun _ _ => nil) wf.ids_nodup ht' hm (by simp)
  · next h =>
    rw [← wf.treeAt]
    split
    · next he => rw [he]
    · next he =>
      rw [prune_eq_self_of_not_mem]
      exact fun hn => h (wf.parent?_isSome hn (Ne.symm he))

theorem WellFormed.grows_takeChildren (wf : d.WellFormed) (n : NodeId) :
    d.Grows (d.takeChildren n).2 := by
  rw [wf.takeChildren]
  refine wf.grows_of_perm ?_
  by_cases hn : n ∈ d.ids
  · obtain ⟨node, cs, -, ht⟩ := wf.exists_treeAt hn
    rw [ids_append, ht]
    rw [wf.treeAt] at ht
    have := perm_ids_replace (fun node _ => tree node nil) ht
    simp only [tree, firstChildren, ids_cons, ids_nil, List.append_nil] at this ⊢
    rw [List.perm_iff_count] at this ⊢
    intro i
    have := this i
    simp only [List.count_append, List.count_cons, List.count_nil] at this ⊢
    omega
  · rw [wf.treeAt_eq_nil hn, replace_eq_self_of_not_mem hn]
    simp [firstChildren]

@[simp] theorem WellFormed.fresh_takeChildren (wf : d.WellFormed) (n : NodeId) :
    (d.takeChildren n).2.fresh = d.fresh := by
  rw [wf.takeChildren]
  rfl

theorem WellFormed.treeAt_takeChildren (wf : d.WellFormed) (n m : NodeId) :
    (d.takeChildren n).2.treeAt m =
      if m ∈ Xml.ids (d.treeAt n).firstChildren then d.treeAt m
      else (d.treeAt m).replace (·.id == n) fun node _ => tree node nil := by
  have hwf := (wf.grows_takeChildren n).wellFormed
  rw [hwf.treeAt]
  rw [wf.takeChildren] at hwf ⊢
  by_cases hn : n ∈ d.ids
  · obtain ⟨node, cs, rfl, ht⟩ := wf.exists_treeAt hn
    have ht' := ht
    rw [wf.treeAt] at ht'
    have hnd := hwf.ids_nodup
    simp only [remake_trees, ht, tree, firstChildren] at hnd ⊢
    rw [treeAt_append]
    split
    · next h =>
      have h := any_id_iff.mp h
      rw [if_pos h, wf.treeAt_children ht h]
    · next h =>
      rw [any_id_iff] at h
      rw [if_neg h]
      by_cases hm : m = node.id
      · rw [ids_append] at hnd
        have hput : m ∈ Xml.ids (tree node nil) := by simp [hm]
        refine (treeAt_replace_of_mem (fun node _ => tree node nil)
          (List.nodup_append.mp hnd).2.1 ht' hput).trans ?_
        rw [hm, ht]
        simp [tree, treeAt_cons, replace_cons]
      · have hout : m ∉ Xml.ids (tree node cs) := by simp [hm, h]
        rw [wf.treeAt]
        exact treeAt_replace (fun node _ => tree node nil) wf.ids_nodup ht' hout
          (by simp [hm])
  · have hnm : n ∉ Xml.ids (d.treeAt m) := fun h => hn (wf.mem_ids_of_mem_treeAt h)
    simp only [remake_trees, wf.treeAt_eq_nil hn, firstChildren, nil_append, ids_nil,
      List.not_mem_nil, if_false]
    rw [replace_eq_self_of_not_mem hn, replace_eq_self_of_not_mem hnm, wf.treeAt]

/-! ## Labels -/

theorem WellFormed.grows_relabel (wf : d.WellFormed) (n : NodeId) (change : Label → Label) :
    d.Grows (d.relabel n change) := by
  rw [wf.relabel]
  refine wf.grows_of_perm ?_
  by_cases hn : n ∈ d.ids
  · obtain ⟨node, cs, -, ht⟩ := wf.exists_treeAt hn
    rw [wf.treeAt] at ht
    have := perm_ids_replace
      (fun node cs => tree { node with label := change node.label } cs) ht
    simp only [ids_tree] at this
    exact (List.perm_append_right_iff _).mp this
  · rw [replace_eq_self_of_not_mem hn]

@[simp] theorem WellFormed.fresh_relabel (wf : d.WellFormed) (n : NodeId)
    (change : Label → Label) : (d.relabel n change).fresh = d.fresh := by
  rw [wf.relabel]
  rfl

theorem WellFormed.treeAt_relabel (wf : d.WellFormed) (n m : NodeId) (change : Label → Label) :
    (d.relabel n change).treeAt m =
      (d.treeAt m).replace (·.id == n) fun node cs =>
        tree { node with label := change node.label } cs := by
  have hwf := (wf.grows_relabel n change).wellFormed
  rw [hwf.treeAt]
  rw [wf.relabel] at hwf ⊢
  by_cases hn : n ∈ d.ids
  · obtain ⟨node, cs, rfl, ht⟩ := wf.exists_treeAt hn
    have ht' := ht
    rw [wf.treeAt] at ht'
    have hnd := hwf.ids_nodup
    simp only [remake_trees] at hnd ⊢
    by_cases hm : m ∈ Xml.ids (tree node cs)
    · rw [treeAt_replace_of_mem _ hnd ht' (by simpa using hm)]
      by_cases he : m = node.id
      · subst he
        rw [ht]
        simp [tree, treeAt_cons, replace_cons]
      · have hcs : m ∈ Xml.ids cs := by simpa [he] using hm
        rw [replace_eq_self_of_not_mem (wf.not_mem_treeAt (ht ▸ hm) he), tree, treeAt_cons,
          any_id_iff.mpr hcs, ← wf.treeAt_children ht hcs]
        simp [Ne.symm he]
    · rw [treeAt_replace _ wf.ids_nodup ht' hm (by simpa using hm), wf.treeAt]
  · have hnm : n ∉ Xml.ids (d.treeAt m) := fun h => hn (wf.mem_ids_of_mem_treeAt h)
    rw [replace_eq_self_of_not_mem hnm, remake_trees, replace_eq_self_of_not_mem hn, wf.treeAt]

/-! ## New nodes -/

theorem WellFormed.grows_addCopies (wf : d.WellFormed) (copies : Forest Label) :
    d.Grows (d.addCopies copies) := by
  rw [addCopies_eq]
  refine wf.grows_remake copies.size ?_
  rw [ids_append, ids_identify]
  exact List.perm_append_comm

@[simp] theorem fresh_addCopies (copies : Forest Label) :
    (d.addCopies copies).fresh = d.fresh + copies.size := rfl

theorem WellFormed.treeAt_addCopies (wf : d.WellFormed) (copies : Forest Label) (m : NodeId) :
    (d.addCopies copies).treeAt m =
      if d.fresh ≤ m.number then (identify d.fresh copies).treeAt (·.id == m) else d.treeAt m := by
  rw [(wf.grows_addCopies copies).wellFormed.treeAt, addCopies_eq, remake_trees, treeAt_append,
    wf.treeAt]
  by_cases hm : m ∈ Xml.ids (identify d.fresh copies)
  · rw [if_pos (any_id_iff.mpr hm), if_pos]
    rw [ids_identify] at hm
    obtain ⟨i, hi, rfl⟩ := List.mem_map.mp hm
    exact (List.mem_range'_1.mp hi).1
  · rw [any_id_eq_false_iff.mpr hm, treeAt_eq_nil_of_not_mem hm]
    simp only [Bool.false_eq_true, if_false]
    split
    · next h =>
      rw [treeAt_eq_nil_of_not_mem]
      exact fun hn => absurd (wf.lt_fresh m hn) (by omega)
    · rfl

/-! ## Putting in -/

section Put

variable {target : NodeId} {up : List (Frame Node)}

/-- `target` as the place for a tree without parent that does not hold it. -/
structure Receives (d : Document) (n target : NodeId) : Prop where
  mem_ids : n ∈ d.ids
  parent?_eq : d.parent? n = none
  target_mem_ids : target ∈ d.ids
  target_not_mem : target ∉ Xml.ids (d.treeAt n)

theorem WellFormed.exists_root (wf : d.WellFormed) (hn : n ∈ d.ids) (hp : d.parent? n = none) :
    ∃ l node cs r, d.trees = l ++ cons node cs r ∧ node.id = n := by
  obtain ⟨up, l, node, cs, r, h, rfl⟩ := exists_spot hn
  rw [Document.parent?_eq wf h] at hp
  cases up with
  | nil => exact ⟨l, node, cs, r, h, rfl⟩
  | cons fr up => simp at hp

/-- Putting a tree in at a node changes the other trees there. -/
theorem WellFormed.moveTo_eq (wf : d.WellFormed) (h : d.Receives n target)
    (put : Forest Node → Node → Forest Node → Forest Node) :
    d.moveTo n target put =
      d.remake ((d.trees.prune (·.id == n)).replace (·.id == target) (put (d.treeAt n)))
        d.fresh := by
  obtain ⟨l, node, cs, r, htrees, rfl⟩ := wf.exists_root h.mem_ids h.parent?_eq
  have hout : d.detach node.id = d := detach_root_eq wf htrees
  have hprune : d.trees.prune (·.id == node.id) = l ++ r :=
    prune_spot wf.ids_nodup (eq_wrap_nil htrees)
  have htarget : target ∈ Xml.ids (l ++ r) := by
    have := h.target_mem_ids
    have hnot := h.target_not_mem
    rw [treeAt_eq wf (eq_wrap_nil htrees)] at hnot
    rw [ids_eq, htrees] at this
    simp_all
  obtain ⟨f, hf⟩ := Option.isSome_iff_exists.mp
    (replace?_isSome (put (d.treeAt node.id)) (any_id_iff.mpr htarget))
  simp only [moveTo, hout, hprune, hf, replace]
  rfl

/-- The trees without the one at `n`. -/
theorem Receives.treeAt_prune (h : d.Receives n target) (wf : d.WellFormed)
    (hm : m ∉ Xml.ids (d.treeAt n)) :
    (d.trees.prune (·.id == n)).treeAt (·.id == m) = d.treeAt m := by
  obtain ⟨l, node, cs, r, htrees, rfl⟩ := wf.exists_root h.mem_ids h.parent?_eq
  have ht := treeAt_eq wf (eq_wrap_nil htrees)
  have hprune : d.trees.prune (·.id == node.id) = l ++ r :=
    prune_spot wf.ids_nodup (eq_wrap_nil htrees)
  rw [hprune, wf.treeAt, htrees, treeAt_append, treeAt_append, treeAt_cons]
  rw [ht, ids_tree, List.mem_cons, not_or] at hm
  simp [any_id_eq_false_iff.mpr hm.2, Ne.symm hm.1]

theorem Receives.nodup_prune (h : d.Receives n target) (wf : d.WellFormed) :
    (Xml.ids (d.trees.prune (·.id == n))).Nodup := by
  obtain ⟨l, node, cs, r, htrees, rfl⟩ := wf.exists_root h.mem_ids h.parent?_eq
  have hall := wf.ids_nodup
  rw [prune_spot wf.ids_nodup (eq_wrap_nil htrees)]
  rw [htrees] at hall
  refine hall.sublist ?_
  simp only [wrap, ids_append, ids_cons]
  exact (List.Sublist.refl _).append ((List.sublist_append_right _ _).trans (List.sublist_cons_self _ _))

/-- The tree that is put in and the one at the place where it is put have no node in common. -/
theorem Receives.disjoint (h : d.Receives n target) (wf : d.WellFormed)
    (hm : m ∈ Xml.ids (d.treeAt n)) : m ∉ Xml.ids (d.treeAt target) := by
  intro hmt
  rw [← h.treeAt_prune wf h.target_not_mem] at hmt
  have hmt := Xml.mem_ids_of_mem_treeAt hmt
  obtain ⟨l, node, cs, r, htrees, rfl⟩ := wf.exists_root h.mem_ids h.parent?_eq
  have hall := wf.ids_nodup
  rw [treeAt_eq wf (eq_wrap_nil htrees)] at hm
  rw [prune_spot wf.ids_nodup (eq_wrap_nil htrees)] at hmt
  rw [htrees] at hall
  simp only [wrap, ids_append, ids_cons, ids_tree, List.nodup_append, List.nodup_cons,
    List.mem_append, List.mem_cons, not_or] at hall hm hmt
  obtain ⟨-, ⟨⟨-, h₁⟩, -, -, h₂⟩, h₃⟩ := hall
  rcases hmt with hl | hr
  · exact h₃ m hl m (hm.imp_right .inl) rfl
  · rcases hm with rfl | hm
    · exact h₁ hr
    · exact h₂ m hm m hr rfl

theorem Receives.grows_put (h : d.Receives n target) (wf : d.WellFormed)
    (put : Node → Forest Node → Forest Node) (ht : d.treeAt target = tree node cs)
    (hput : (Xml.ids (put node cs)).Perm (Xml.ids (tree node cs) ++ Xml.ids (d.treeAt n))) :
    d.Grows (d.remake ((d.trees.prune (·.id == n)).replace (·.id == target) put) d.fresh) := by
  refine wf.grows_of_perm ?_
  obtain ⟨moved, mcs, hid, hmoved⟩ := wf.exists_treeAt h.mem_ids
  have h₁ := perm_ids_replace put ((h.treeAt_prune wf h.target_not_mem).trans ht)
  have h₂ := perm_ids_replace (fun _ _ => nil) (wf.treeAt n ▸ hmoved)
  rw [hmoved] at hput
  rw [ids_nil, List.append_nil] at h₂
  change (Xml.ids (d.trees.prune (·.id == n)) ++ _).Perm _ at h₂
  rw [List.perm_iff_count] at h₁ h₂ hput ⊢
  intro i
  have h₁ := h₁ i
  have h₂ := h₂ i
  have hput := hput i
  simp only [List.count_append] at h₁ h₂ hput ⊢
  omega

/-- The trees that are neither moved nor at the place where one is put in. -/
theorem Receives.treeAt_put (h : d.Receives n target)
    (put : Node → Forest Node → Forest Node) (wf : d.WellFormed) (ht : d.treeAt target = tree node cs)
    (hput : (Xml.ids (put node cs)).Perm (Xml.ids (tree node cs) ++ Xml.ids (d.treeAt n)))
    (hn : m ∉ Xml.ids (d.treeAt n)) (htarget : m ∉ Xml.ids (d.treeAt target)) :
    (d.remake ((d.trees.prune (·.id == n)).replace (·.id == target) put) d.fresh).treeAt m =
      (d.treeAt m).replace (·.id == target) put := by
  rw [(h.grows_put wf put ht hput).wellFormed.treeAt, remake_trees,
    Xml.treeAt_replace _ (h.nodup_prune wf) ((h.treeAt_prune wf h.target_not_mem).trans ht)
      (ht ▸ htarget), h.treeAt_prune wf hn]
  intro hm
  rcases List.mem_append.mp (hput.mem_iff.mp hm) with hm | hm
  · exact htarget (ht ▸ hm)
  · exact hn hm

/-- The trees at the place where one is put in. -/
theorem Receives.treeAt_put_of_mem (h : d.Receives n target)
    (put : Node → Forest Node → Forest Node) (wf : d.WellFormed) (ht : d.treeAt target = tree node cs)
    (hput : (Xml.ids (put node cs)).Perm (Xml.ids (tree node cs) ++ Xml.ids (d.treeAt n)))
    (hm : m ∈ Xml.ids (put node cs)) :
    (d.remake ((d.trees.prune (·.id == n)).replace (·.id == target) put) d.fresh).treeAt m =
      (put node cs).treeAt (·.id == m) := by
  have hwf := (h.grows_put wf put ht hput).wellFormed
  rw [hwf.treeAt, remake_trees]
  exact treeAt_replace_of_mem _ hwf.ids_nodup ((h.treeAt_prune wf h.target_not_mem).trans ht) hm

theorem WellFormed.append_eq (wf : d.WellFormed) (h : d.Receives n target) :
    d.append target n =
      d.remake ((d.trees.prune (·.id == n)).replace (·.id == target)
        fun node cs => tree node (cs ++ d.treeAt n)) d.fresh :=
  wf.moveTo_eq h _

theorem WellFormed.grows_append (wf : d.WellFormed) (h : d.Receives n target) :
    d.Grows (d.append target n) := by
  obtain ⟨node, cs, -, ht⟩ := wf.exists_treeAt h.target_mem_ids
  rw [wf.append_eq h]
  exact h.grows_put wf _ ht (by simp)

theorem WellFormed.treeAt_append (wf : d.WellFormed) (h : d.Receives n target) (m : NodeId) :
    (d.append target n).treeAt m =
      if m ∈ Xml.ids (d.treeAt n) then d.treeAt m
      else (d.treeAt m).replace (·.id == target) fun node cs => tree node (cs ++ d.treeAt n) := by
  obtain ⟨node, cs, hid, ht⟩ := wf.exists_treeAt h.target_mem_ids
  let put : Node → Forest Node → Forest Node := fun node cs => tree node (cs ++ d.treeAt n)
  have hput : (Xml.ids (put node cs)).Perm (Xml.ids (tree node cs) ++ Xml.ids (d.treeAt n)) := by
    simp [put]
  have hnd := (wf.grows_append h).wellFormed.nodup_treeAt target
  rw [wf.append_eq h] at hnd ⊢
  rw [h.treeAt_put_of_mem _ wf ht hput (by simp [put, hid])] at hnd
  simp only [put, tree, treeAt_cons, hid, beq_self_eq_true, if_true, ids_cons, ids_append,
    List.append_nil, List.nodup_cons, List.nodup_append, ids_nil] at hnd
  split
  · next hm =>
    rw [h.treeAt_put_of_mem _ wf ht hput (by simp [put, hm])]
    have hne : node.id ≠ m := fun he => hnd.1 (by simp [← hid, he, hm])
    have hncs : m ∉ Xml.ids cs := fun hc => hnd.2.2.2 m hc m hm rfl
    rw [← wf.treeAt_treeAt hm]
    simp [put, tree, treeAt_cons, Forest.treeAt_append, any_append, any_id_iff.mpr hm,
      any_id_eq_false_iff.mpr hncs, hne]
  · next hm =>
    by_cases hmt : m ∈ Xml.ids (d.treeAt target)
    · have hmt' := hmt
      rw [ht, ids_tree, List.mem_cons] at hmt'
      rw [h.treeAt_put_of_mem _ wf ht hput (by rcases hmt' with he | hc <;> simp [put, *])]
      by_cases hme : m = target
      · rw [hme, ht]
        simp [put, tree, treeAt_cons, replace_cons, hid]
      · have hcs : m ∈ Xml.ids cs := by
          rcases hmt' with he | hc
          · exact absurd (he.trans hid) hme
          · exact hc
        rw [replace_eq_self_of_not_mem (wf.not_mem_treeAt hmt hme), ← wf.treeAt_children ht hcs]
        have hne : node.id ≠ m := fun he => hme (he.symm.trans hid)
        simp [put, tree, treeAt_cons, Forest.treeAt_append, any_append, any_id_iff.mpr hcs, hne]
    · exact h.treeAt_put _ wf ht hput hm hmt

theorem replaceRoot_spot {l r : Forest Node} (put : Node → Forest Node → Forest Node)
    (hl : l.any (·.id == node.id) = false) :
    (l ++ cons node cs r).replaceRoot (·.id == node.id) put = l ++ (put node cs ++ r) := by
  induction l with
  | nil => simp [replaceRoot]
  | cons a as rest _ ih =>
    simp only [any, Bool.or_eq_false_iff] at hl
    simp [replaceRoot, hl.1.1, ih hl.2]

/-- Beside a node is where it stands among the children of its parent. -/
theorem WellFormed.insertBeside_eq (wf : d.WellFormed) (h : d.Receives n target)
    (hp : (d.parent? target).isSome) (put : Forest Node → Forest Node → Forest Node) :
    d.insertBeside put target n =
      d.remake ((d.trees.prune (·.id == n)).replace (·.id == target)
        fun node cs => put (d.treeAt n) (tree node cs)) d.fresh := by
  obtain ⟨l₀, moved, mcs, r₀, htrees, rfl⟩ := wf.exists_root h.mem_ids h.parent?_eq
  have hmoved := treeAt_eq wf (eq_wrap_nil htrees)
  have hprune : d.trees.prune (·.id == moved.id) = l₀ ++ r₀ :=
    prune_spot wf.ids_nodup (eq_wrap_nil htrees)
  have hnd := h.nodup_prune wf
  obtain ⟨htm, htl⟩ : target ∉ Xml.ids (tree moved mcs) ∧ target ∈ Xml.ids (l₀ ++ r₀) := by
    have h₁ := h.target_not_mem
    have h₂ := h.target_mem_ids
    rw [hmoved] at h₁
    rw [ids_eq, htrees] at h₂
    refine ⟨h₁, ?_⟩
    simp_all
  obtain ⟨up, l, node, cs, r, hspot, rfl⟩ := exists_spot htl
  rw [hprune] at hnd ⊢
  -- The nodes above the target are the same with and without the tree to be moved.
  have hup : d.ancestors node.id = up.map fun fr => fr.value.id := by
    have habove : d.trees.above? (·.id == node.id) = (l₀ ++ r₀).above? (·.id == node.id) := by
      rw [htrees, above?_append, above?_append, above?_cons]
      simp only [ids_tree, List.mem_cons, not_or] at htm
      simp [any_id_eq_false_iff.mpr htm.2, Ne.symm htm.1]
    rw [wf.ancestors, habove, above?_spot hnd hspot]
    simp
  cases up with
  | nil => simp [parent?, hup] at hp
  | cons fr up =>
    have hparent : d.parent? node.id = some fr.value.id := by simp [parent?, hup]
    have hmem : fr.value.id ∈ Xml.ids (l₀ ++ r₀) := by
      rw [hspot, ids_wrap]
      simp [opening]
    have hne : node.id ≠ moved.id := by
      simp only [ids_tree, List.mem_cons, not_or] at htm
      exact htm.1
    have hrec : d.Receives moved.id fr.value.id := by
      refine ⟨h.mem_ids, h.parent?_eq, ?_, ?_⟩
      · rw [ids_eq, htrees]
        simp only [ids_append, ids_cons, List.mem_append, List.mem_cons] at hmem ⊢
        rcases hmem with hm | hm <;> simp [hm]
      · have hall := wf.ids_nodup
        rw [htrees, ids_append, ids_cons] at hall
        rw [hmoved, ids_tree]
        intro hm
        rw [List.nodup_append, List.nodup_cons, List.nodup_append] at hall
        simp only [ids_append, List.mem_append, List.mem_cons] at hmem hm hall
        obtain ⟨-, ⟨h₁, -, -, h₂⟩, h₃⟩ := hall
        rcases hmem with hl | hr
        · exact h₃ _ hl _ (by rcases hm with hm | hm <;> simp [hm]) rfl
        · rcases hm with hm | hm
          · exact h₁ (.inr (hm ▸ hr))
          · exact h₂ _ hm _ hr rfl
    have hspot' : l₀ ++ r₀ =
        wrap up (fr.before ++ cons fr.value (l ++ cons node cs r) fr.after) := hspot
    have hl := (id_ne_of_spot hnd hspot).2.1
    rw [insertBeside, hparent]
    simp only [hne, if_false]
    rw [wf.moveTo_eq hrec, hprune, replace_spot hnd hspot, replace_spot hnd hspot',
      replaceRoot_spot _ hl]
    rfl

section Beside

variable {put : Forest Node → Forest Node → Forest Node}

theorem WellFormed.grows_insertBeside (wf : d.WellFormed) (h : d.Receives n target)
    (hp : (d.parent? target).isSome)
    (hput : ∀ f g, (Xml.ids (put f g)).Perm (Xml.ids g ++ Xml.ids f)) :
    d.Grows (d.insertBeside put target n) := by
  obtain ⟨node, cs, -, ht⟩ := wf.exists_treeAt h.target_mem_ids
  rw [wf.insertBeside_eq h hp]
  exact h.grows_put wf _ ht (hput _ _)

theorem WellFormed.treeAt_insertBeside (wf : d.WellFormed) (h : d.Receives n target)
    (hp : (d.parent? target).isSome)
    (hput : ∀ f g, put f g = f ++ g ∨ put f g = g ++ f) (m : NodeId) :
    (d.insertBeside put target n).treeAt m =
      if m ∈ Xml.ids (d.treeAt n) ∨ m = target then d.treeAt m
      else (d.treeAt m).replace (·.id == target)
        fun node cs => put (d.treeAt n) (tree node cs) := by
  obtain ⟨node, cs, hid, ht⟩ := wf.exists_treeAt h.target_mem_ids
  have hperm : ∀ f g, (Xml.ids (put f g)).Perm (Xml.ids g ++ Xml.ids f) := by
    intro f g
    rcases hput f g with hfg | hfg <;> rw [hfg, ids_append]
    exact List.perm_append_comm
  let place : Node → Forest Node → Forest Node := fun node cs => put (d.treeAt n) (tree node cs)
  have hmem : ∀ m, m ∈ Xml.ids (place node cs) ↔ m ∈ Xml.ids (tree node cs) ∨
      m ∈ Xml.ids (d.treeAt n) := by
    intro m
    rw [(hperm (d.treeAt n) (tree node cs)).mem_iff, List.mem_append]
  rw [wf.insertBeside_eq h hp]
  have hat := fun m => h.treeAt_put_of_mem (m := m) place wf ht (hperm _ _)
  have hdis : ∀ m, m ∈ Xml.ids (d.treeAt n) → m ∉ Xml.ids (tree node cs) := fun m hm hmt =>
    h.disjoint wf hm (ht ▸ hmt)
  have hplace : ∀ m, m ∈ Xml.ids (place node cs) → (place node cs).treeAt (·.id == m) = d.treeAt m := by
    intro m hm
    have hn : ∀ hm : m ∈ Xml.ids (d.treeAt n), (d.treeAt n).treeAt (·.id == m) = d.treeAt m :=
      fun hm => wf.treeAt_treeAt hm
    have htree : ∀ hm : m ∈ Xml.ids (tree node cs),
        (tree node cs).treeAt (·.id == m) = d.treeAt m := fun hm => by
      rw [← ht] at hm ⊢
      exact wf.treeAt_treeAt hm
    rcases hput (d.treeAt n) (tree node cs) with hfg | hfg <;>
      simp only [place, hfg, Forest.treeAt_append] <;>
      rcases (hmem m).mp hm with h' | h'
    · rw [any_id_eq_false_iff.mpr fun hm => hdis m hm h', htree h']
      simp
    · rw [if_pos (any_id_iff.mpr h'), hn h']
    · rw [if_pos (any_id_iff.mpr h'), htree h']
    · rw [any_id_eq_false_iff.mpr (hdis m h'), hn h']
      simp
  split
  · next hm =>
    have : m ∈ Xml.ids (place node cs) := by
      rw [hmem]
      rcases hm with hm | rfl
      · exact .inr hm
      · exact .inl (by simp [hid])
    rw [hat m this, hplace m this]
  · next hm =>
    rw [not_or] at hm
    by_cases hmt : m ∈ Xml.ids (d.treeAt target)
    · have : m ∈ Xml.ids (place node cs) := (hmem m).mpr (.inl (ht ▸ hmt))
      rw [hat m this, hplace m this, replace_eq_self_of_not_mem (wf.not_mem_treeAt hmt hm.2)]
    · exact h.treeAt_put place wf ht (hperm _ _) hm.1 hmt

end Beside

theorem WellFormed.grows_insertAfter (wf : d.WellFormed) (h : d.Receives n target)
    (hp : (d.parent? target).isSome) : d.Grows (d.insertAfter target n) :=
  wf.grows_insertBeside h hp fun f g => by rw [ids_append]

theorem WellFormed.treeAt_insertAfter (wf : d.WellFormed) (h : d.Receives n target)
    (hp : (d.parent? target).isSome) (m : NodeId) :
    (d.insertAfter target n).treeAt m =
      if m ∈ Xml.ids (d.treeAt n) ∨ m = target then d.treeAt m
      else (d.treeAt m).replace (·.id == target) fun node cs => tree node cs ++ d.treeAt n :=
  wf.treeAt_insertBeside h hp (fun _ _ => .inr rfl) m

theorem WellFormed.grows_insertBefore (wf : d.WellFormed) (h : d.Receives n target)
    (hp : (d.parent? target).isSome) : d.Grows (d.insertBefore target n) :=
  wf.grows_insertBeside h hp fun f g => by rw [ids_append]; exact List.perm_append_comm

theorem WellFormed.treeAt_insertBefore (wf : d.WellFormed) (h : d.Receives n target)
    (hp : (d.parent? target).isSome) (m : NodeId) :
    (d.insertBefore target n).treeAt m =
      if m ∈ Xml.ids (d.treeAt n) ∨ m = target then d.treeAt m
      else (d.treeAt m).replace (·.id == target) fun node cs => d.treeAt n ++ tree node cs :=
  wf.treeAt_insertBeside h hp (fun _ _ => .inl rfl) m

/-! ### Putting in new nodes -/

/-- A new tree can be put anywhere. -/
theorem WellFormed.receives_copy (wf : d.WellFormed) (label : Label) (copies : Forest Label)
    (ht : target ∈ d.ids) : (d.addCopies (tree label copies)).Receives d.freshId target := by
  have hgrows := wf.grows_addCopies (tree label copies)
  have htrees : (d.addCopies (tree label copies)).trees =
      nil ++ cons ⟨d.freshId, label⟩ (identify (d.fresh + 1) copies) d.trees := rfl
  have hat := treeAt_eq hgrows.wellFormed (eq_wrap_nil htrees)
  refine ⟨?_, parent?_eq hgrows.wellFormed (eq_wrap_nil htrees), hgrows.mem_ids _ ht, ?_⟩
  · rw [ids_eq, htrees]
    simp
  · rw [hat]
    intro hmem
    have hlt := wf.lt_fresh _ ht
    have : target ∈ Xml.ids (identify d.fresh (tree label copies)) := hmem
    rw [ids_identify] at this
    obtain ⟨i, hi, rfl⟩ := List.mem_map.mp this
    have := (List.mem_range'_1.mp hi).1
    simp only at hlt
    omega

theorem WellFormed.treeAt_freshId (wf : d.WellFormed) (label : Label) (copies : Forest Label) :
    (d.addCopies (tree label copies)).treeAt d.freshId =
      tree ⟨d.freshId, label⟩ (identify (d.fresh + 1) copies) := by
  have htrees : (d.addCopies (tree label copies)).trees =
      nil ++ cons ⟨d.freshId, label⟩ (identify (d.fresh + 1) copies) d.trees := rfl
  exact treeAt_eq (wf.grows_addCopies _).wellFormed (eq_wrap_nil htrees)

theorem WellFormed.treeAt_addCopies_of_mem (wf : d.WellFormed) (copies : Forest Label)
    (hm : m ∈ d.ids) : (d.addCopies copies).treeAt m = d.treeAt m := by
  rw [wf.treeAt_addCopies, if_neg]
  have := wf.lt_fresh m hm
  omega

end Put

/-! ## Documents of one tree -/

section OfTree

variable {tag : Element} {children : Forest Label}

theorem ids_ofTree (tag : Element) (children : Forest Label) :
    (ofTree tag children).ids = (List.range' 0 (children.size + 1)).map NodeId.mk := by
  show Xml.ids (identify 0 (tree (.element tag) children)) = _
  rw [ids_identify]
  simp [tree, size, Nat.add_comm]

theorem wellFormed_ofTree (tag : Element) (children : Forest Label) :
    (ofTree tag children).WellFormed := by
  have hids := ids_ofTree tag children
  refine ⟨rfl, ?_, fun n hn => ?_, ?_⟩
  · rw [hids, List.nodup_iff_pairwise_ne, List.pairwise_map]
    exact (List.nodup_iff_pairwise_ne.mp List.nodup_range').imp fun hne he =>
      hne (NodeId.mk.inj he)
  · rw [hids] at hn
    obtain ⟨i, hi, rfl⟩ := List.mem_map.mp hn
    rw [List.mem_range'_1] at hi
    show i < children.size + 1
    omega
  · rw [hids]
    exact List.mem_map.mpr ⟨0, by simp, rfl⟩

theorem treeAt_root_ofTree (tag : Element) (children : Forest Label) :
    (ofTree tag children).treeAt (ofTree tag children).root =
      identify 0 (tree (.element tag) children) := by
  rw [(wellFormed_ofTree tag children).treeAt]
  show (identify 0 (tree (.element tag) children)).treeAt (·.id == ⟨0⟩) = _
  simp [identify, tree, number, Forest.map, Forest.treeAt]

theorem labelsAt_root_ofTree (tag : Element) (children : Forest Label) :
    (ofTree tag children).labelsAt (ofTree tag children).root =
      tree (.element tag) children := by
  rw [labelsAt, treeAt_root_ofTree, labels_identify]

end OfTree

end Document

end WordTemplate.Xml
