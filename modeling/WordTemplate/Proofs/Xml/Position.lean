import WordTemplate.Proofs.Xml.Lookup

/-!
# Positions in a document

What a spot says about the place of a node: the siblings around it, the nodes above it, and for two
nodes in trees side by side the nearest node above both.

* `index?_eq`, `between_eq`: places among siblings.
* `commonAncestor?_fork`, `childToward?_fork`: the nearest node above two nodes.
-/

namespace WordTemplate

open Forest

namespace Forest

variable {α : Type u}

@[simp] theorem roots_append (f g : Forest α) : (f ++ g).roots = f.roots ++ g.roots := by
  induction f with
  | nil => rfl
  | cons a cs rest _ ih => simp [roots, ih]

@[simp] theorem roots_tree (a : α) (cs : Forest α) : (tree a cs).roots = [a] := rfl

theorem roots_sublist (f : Forest α) : f.roots.Sublist f.toList := by
  induction f with
  | nil => exact .slnil
  | cons a cs rest _ ih =>
    exact (ih.trans (List.sublist_append_right _ _)).cons_cons a

end Forest

namespace Xml

theorem roots_ids_sublist (f : Forest Node) : (f.roots.map Node.id).Sublist (ids f) :=
  f.roots_sublist.map _

namespace Document

variable {d : Document}

/-! ## Siblings -/

section Siblings

variable {l r cs : Forest Node} {up : List (Frame Node)} {node : Node} {fr : Frame Node}

theorem nodup_siblings (wf : d.WellFormed) (h : d.trees = wrap up (l ++ cons node cs r)) :
    (l.roots.map Node.id ++ node.id :: r.roots.map Node.id).Nodup := by
  have hnd := wf.ids_nodup
  rw [h, ids_wrap] at hnd
  have := (List.nodup_append.mp (List.nodup_append.mp hnd).2.1).1.sublist
    (roots_ids_sublist (l ++ cons node cs r))
  simpa [roots] using this

theorem index?_eq (wf : d.WellFormed) (h : d.trees = wrap (fr :: up) (l ++ cons node cs r)) :
    d.index? node.id = some l.roots.length := by
  have hnd := nodup_siblings wf h
  rw [List.nodup_append] at hnd
  rw [index?, siblings_eq wf h, List.idxOf?_eq_some_iff]
  refine ⟨by simp [roots], by simp [roots], fun j hj => ?_⟩
  simp only [roots_append, List.map_append]
  rw [List.getElem_append_left (by simpa using hj)]
  exact fun he => hnd.2.2 _ (List.getElem_mem _) _ (List.mem_cons_self) he

/-- The siblings between two nodes. -/
theorem between_eq {l mid r as bs : Forest Node} {a b : Node} (wf : d.WellFormed)
    (h : d.trees = wrap (fr :: up) (l ++ cons a as (mid ++ cons b bs r))) :
    d.between a.id b.id = mid.roots.map Node.id := by
  have h' : d.trees = wrap (fr :: up) ((l ++ cons a as mid) ++ cons b bs r) := by
    rw [h, append_assoc]
    rfl
  rw [between, index?_eq wf h, index?_eq wf h', siblings_eq wf h, parent?_eq wf h,
    parent?_eq wf h']
  simp [roots, List.take_append, List.drop_append]

end Siblings

/-! ## Nodes above -/

variable {root n m : NodeId} {X : Forest Node} {fr : Frame Node} {up : List (Frame Node)}

/-- A spot in the tree at a node is a spot in the document, below nodes with the same values. -/
theorem WellFormed.exists_spot_of_treeAt (wf : d.WellFormed) (h : d.treeAt root = wrap (fr :: up) X) :
    ∃ fr' up', d.trees = wrap (fr' :: up') X ∧ fr'.value = fr.value ∧
      ∃ outer : List (Frame Node), (fr' :: up').map Frame.value =
        (fr :: up).map Frame.value ++ outer.map Frame.value := by
  have hroot : root ∈ d.ids := by
    by_contra hn
    rw [wf.treeAt_eq_nil hn] at h
    have := congrArg toList h
    simp [toList_wrap, toList, opening] at this
  obtain ⟨node, cs, rfl, ht⟩ := wf.exists_treeAt hroot
  rw [ht] at h
  obtain ⟨outer, fr₀, hup⟩ : ∃ outer fr₀, fr :: up = outer ++ [fr₀] := by
    rcases List.eq_nil_or_concat (fr :: up) with h | ⟨outer, fr₀, h⟩
    · simp at h
    · exact ⟨outer, fr₀, by rw [h, List.concat_eq_append]⟩
  rw [hup, wrap_append, wrap, wrap] at h
  -- The outermost frame is that of the root, with nothing beside it.
  obtain ⟨hvalue, hcs⟩ : fr₀.value = node ∧ cs = wrap outer X := by
    cases hb : fr₀.before with
    | nil =>
      rw [hb, tree, nil_append] at h
      obtain ⟨hvalue, hcs, -⟩ := Forest.cons.inj h
      exact ⟨hvalue.symm, hcs⟩
    | cons a as rest =>
      rw [hb, tree, cons_append] at h
      cases rest <;> simp at h
  rw [hcs] at ht
  obtain ⟨l, r, above, htrees, -⟩ := wf.exists_below ht
  cases outer with
  | nil =>
    obtain ⟨rfl, rfl⟩ : fr = fr₀ ∧ up = [] := by simpa using hup
    exact ⟨⟨l, node, r⟩, above, htrees, hvalue.symm, above, by simp [hvalue]⟩
  | cons fr₁ outer =>
    obtain ⟨rfl, rfl⟩ := List.cons.inj hup
    exact ⟨fr, outer ++ ⟨l, node, r⟩ :: above, htrees, rfl, above, by simp [hvalue]⟩

theorem WellFormed.exists_parent (wf : d.WellFormed) {node : Node} {cs : Forest Node}
    (hn : d.treeAt n = tree node cs) (hm : m ∈ Xml.ids cs) :
    ∃ q ∈ Xml.ids (d.treeAt n), d.parent? m = some q := by
  obtain ⟨up, l, node', cs', r, rfl, rfl⟩ := exists_spot hm
  obtain ⟨l₀, r₀, outer, htrees, -⟩ := wf.exists_below hn
  cases up with
  | nil => exact ⟨node.id, by simp [hn], by rw [parent?_eq wf htrees]; rfl⟩
  | cons fr up =>
    refine ⟨fr.value.id, ?_, by rw [parent?_eq wf htrees]; rfl⟩
    rw [hn, ids_tree, ids_wrap]
    simp [opening]

theorem WellFormed.ancestors_below (wf : d.WellFormed) {node : Node} {cs : Forest Node}
    (hn : d.treeAt n = tree node cs) (hm : m ∈ Xml.ids cs) :
    ∃ inner, d.ancestors m = inner ++ n :: d.ancestors n ∧ ∀ i ∈ inner, i ∈ Xml.ids cs := by
  obtain ⟨-, rfl⟩ := wf.mem_ids_of_treeAt hn
  obtain ⟨up, l, node', cs', r, rfl, rfl⟩ := exists_spot hm
  obtain ⟨l₀, r₀, outer, htrees, hout⟩ := wf.exists_below hn
  refine ⟨up.map fun fr => fr.value.id, ?_, fun i hi => ?_⟩
  · rw [ancestors_eq wf htrees, hout]
    simp
  · obtain ⟨fr, hfr, rfl⟩ := List.mem_map.mp hi
    rw [ids_wrap]
    simp [List.mem_map_of_mem (f := Node.id) (value_mem_opening hfr)]

theorem WellFormed.isAncestor_of_mem (wf : d.WellFormed) (hm : m ∈ Xml.ids (d.treeAt n))
    (hne : m ≠ n) : d.isAncestor n m = true := by
  obtain ⟨node, cs, rfl, hn⟩ := wf.exists_treeAt (n := n) (by
    by_contra hn
    simp [wf.treeAt_eq_nil hn] at hm)
  obtain ⟨inner, h, -⟩ := wf.ancestors_below hn (by simpa [hn, hne] using hm)
  simp [isAncestor, h]

/-! ## Two nodes in trees side by side -/

section Fork

variable {l mid r as bs : Forest Node} {a b : Node}

/-- A node in one of the trees below a node. -/
theorem WellFormed.ancestors_in (wf : d.WellFormed) {l r as : Forest Node} {a : Node}
    (h : d.trees = wrap (fr :: up) (l ++ cons a as r)) (hm : m ∈ Xml.ids (tree a as)) :
    ∃ inner, d.ancestors m = inner ++ (fr :: up).map (·.value.id) ∧
      ∀ i ∈ inner, i ∈ Xml.ids (tree a as) := by
  have ht := treeAt_eq wf h
  have hup := ancestors_eq wf h
  by_cases he : m = a.id
  · exact ⟨[], by rw [he, hup]; rfl, by simp⟩
  · obtain ⟨inner, hin, hmem⟩ := wf.ancestors_below ht (by simpa [he] using hm)
    refine ⟨inner ++ [a.id], by rw [hin, hup]; simp, ?_⟩
    intro i hi
    rcases List.mem_append.mp hi with hi | hi
    · simp [hmem i hi]
    · simp_all

theorem WellFormed.childToward?_eq (wf : d.WellFormed) {l r as : Forest Node} {a : Node}
    (h : d.trees = wrap (fr :: up) (l ++ cons a as r)) (hm : m ∈ Xml.ids (tree a as)) :
    d.childToward? fr.value.id m = some a.id := by
  have ht := treeAt_eq wf h
  have hparent : d.parent? a.id = some fr.value.id := parent?_eq wf h
  have hfr : fr.value.id ∉ Xml.ids (tree a as) := by
    have hnd := wf.ids_nodup
    rw [h, ids_wrap] at hnd
    intro hmem
    refine (List.nodup_append.mp hnd).2.2 fr.value.id (by simp [opening]) fr.value.id ?_ rfl
    rw [ids_tree] at hmem
    simp only [ids_append, ids_cons, List.mem_append, List.mem_cons] at hmem ⊢
    rcases hmem with hmem | hmem <;> simp [hmem]
  have hbelow : ∀ i ∈ Xml.ids as, d.parent? i ≠ some fr.value.id := by
    intro i hi hp
    obtain ⟨q, hq, hpq⟩ := wf.exists_parent ht hi
    rw [hp] at hpq
    cases hpq
    exact hfr (ht ▸ hq)
  rw [childToward?]
  by_cases he : m = a.id
  · simp [he, hparent]
  · have hcs : m ∈ Xml.ids as := by simpa [he] using hm
    obtain ⟨inner, hin, hmem⟩ := wf.ancestors_below ht hcs
    have hsplit : m :: d.ancestors m = (m :: inner) ++ a.id :: d.ancestors a.id := by
      rw [hin]
      rfl
    have hnone : (m :: inner).find? (fun m => d.parent? m == some fr.value.id) = none := by
      rw [List.find?_eq_none]
      intro i hi
      have hi : i ∈ Xml.ids as := by
        rcases List.mem_cons.mp hi with rfl | hi
        · exact hcs
        · exact hmem i hi
      simpa using hbelow i hi
    rw [hsplit, List.find?_append, hnone, List.find?_cons]
    simp [hparent]

theorem WellFormed.commonAncestor?_eq (wf : d.WellFormed)
    (h : d.trees = wrap (fr :: up) (l ++ cons a as (mid ++ cons b bs r)))
    (hn : n ∈ Xml.ids (tree a as)) (hm : m ∈ Xml.ids (tree b bs)) :
    d.commonAncestor? n m = some fr.value.id := by
  have h' : d.trees = wrap (fr :: up) ((l ++ cons a as mid) ++ cons b bs r) := by
    rw [h, append_assoc]
    rfl
  obtain ⟨ins, hins, hmems⟩ := wf.ancestors_in h hn
  obtain ⟨ine, hine, hmeme⟩ := wf.ancestors_in h' hm
  have hnd := wf.ids_nodup
  rw [h, ids_wrap] at hnd
  obtain ⟨-, hin, hdis⟩ := List.nodup_append.mp hnd
  rw [commonAncestor?, hine, hins, List.find?_append, List.map_cons, List.find?_cons]
  have hnone : ine.find? (ins ++ fr.value.id :: up.map (·.value.id)).contains = none := by
    rw [List.find?_eq_none]
    intro i hi
    have hib := hmeme i hi
    simp only [List.contains_eq_mem, decide_eq_true_eq, List.mem_append, not_or]
    constructor
    · intro hia
      have hia := hmems i hia
      have hin := (List.nodup_append.mp hin).1
      rw [ids_append, ids_cons, ids_append, ids_cons] at hin
      have hin := (List.nodup_append.mp hin).2.1
      rw [← List.cons_append, List.nodup_append] at hin
      rw [ids_tree] at hia hib
      exact hin.2.2 i hia i (by simp only [List.mem_append, List.mem_cons] at hib ⊢; tauto) rfl
    · intro hup
      refine hdis i ?_ i ?_ rfl
      · have : ∀ fr' ∈ fr :: up, fr'.value.id ∈ (opening (fr :: up)).map Node.id := fun fr' hfr =>
          List.mem_map_of_mem (value_mem_opening hfr)
        rcases List.mem_cons.mp hup with rfl | hup
        · exact this fr (by simp)
        · obtain ⟨fr', hfr', rfl⟩ := List.mem_map.mp hup
          exact this fr' (by simp [hfr'])
      · rw [ids_tree] at hib
        simp only [ids_append, ids_cons, List.mem_append, List.mem_cons] at hib ⊢
        tauto
  rw [hnone]
  simp

end Fork

end Document

end Xml

end WordTemplate
