import WordTemplate.Proofs.Xml.Children

/-!
# What a change leaves alone

A change of a document concerns few nodes: those that are moved, those between which they are put, and
those whose label is changed. All others have the same label, the same parent and the same children
afterwards (`Unchanged`). So a part of the document is left alone (`Leaves`) by all changes at nodes that
are not in it, nor children of nodes in it (`Clear`). If nothing connects the part to the rest (`Closed`),
these are all nodes outside.

* `WellFormed.unchanged_detach` and the like: the nodes that a change does not concern.
* `WellFormed.leaves_detach` and the like: the parts of which it concerns no node.
-/

namespace WordTemplate.Xml.Document

open Forest

variable {d d' d'' : Document} {n m p t : NodeId} {P Q : NodeId → Prop}

/-- Whether `n` has the same label, the same parent and the same children in both documents. -/
structure Unchanged (d d' : Document) (n : NodeId) : Prop where
  label?_eq : d'.label? n = d.label? n
  parent?_eq : d'.parent? n = d.parent? n
  children_eq : d'.children n = d.children n

theorem Unchanged.refl (d : Document) (n : NodeId) : d.Unchanged d n :=
  ⟨rfl, rfl, rfl⟩

theorem Unchanged.trans (h : d.Unchanged d' n) (h' : d'.Unchanged d'' n) : d.Unchanged d'' n where
  label?_eq := h'.label?_eq.trans h.label?_eq
  parent?_eq := h'.parent?_eq.trans h.parent?_eq
  children_eq := h'.children_eq.trans h.children_eq

theorem WellFormed.unchanged_detach (wf : d.WellFormed) (hne : m ≠ n) (hm : n ∉ d.children m) :
    d.Unchanged (d.detach n) m where
  label?_eq := label?_detach wf n m
  parent?_eq := wf.parent?_detach_of_ne hne
  children_eq := by
    rw [wf.children_detach, List.filter_eq_self]
    intro i hi
    simpa using fun he : i = n => hm (he ▸ hi)

theorem WellFormed.unchanged_relabel (wf : d.WellFormed) (hne : m ≠ n) (change : Label → Label) :
    d.Unchanged (d.relabel n change) m where
  label?_eq := wf.label?_relabel_ne hne change
  parent?_eq := wf.parent?_congr (wf.grows_relabel n change).wellFormed fun p => by
    rw [wf.children_relabel]
  children_eq := wf.children_relabel n m change

theorem WellFormed.parent?_takeChildren_of_not_mem (wf : d.WellFormed) (hn : m ∉ d.children n) :
    (d.takeChildren n).2.parent? m = d.parent? m :=
  wf.parent?_congr (wf.grows_takeChildren n).wellFormed fun p => by
    rw [wf.children_takeChildren]
    split
    · next hp => simpa [hp] using hn
    · rfl

theorem WellFormed.unchanged_takeChildren (wf : d.WellFormed) (hm : m ∈ d.ids) (hne : m ≠ n)
    (hn : m ∉ d.children n) : d.Unchanged (d.takeChildren n).2 m where
  label?_eq := wf.label?_takeChildren n hm
  parent?_eq := wf.parent?_takeChildren_of_not_mem hn
  children_eq := by
    rw [wf.children_takeChildren, if_neg hne]

theorem WellFormed.unchanged_addCopies (wf : d.WellFormed) (copies : Forest Label) (hm : m ∈ d.ids) :
    d.Unchanged (d.addCopies copies) m where
  label?_eq := wf.label?_addCopies copies hm
  parent?_eq := by
    refine wf.parent?_congr (wf.grows_addCopies copies).wellFormed fun p => ?_
    by_cases hp : p ∈ d.ids
    · rw [wf.children_addCopies copies hp]
    · -- The nodes below a new node are new.
      rw [wf.children_eq_nil hp]
      refine iff_of_false (fun h => ?_) List.not_mem_nil
      have hmem := (wf.grows_addCopies copies).wellFormed.mem_treeAt_of_mem_children h
      rw [wf.treeAt_addCopies] at hmem
      split at hmem
      · have hnew := Xml.mem_ids_of_mem_treeAt hmem
        rw [ids_identify] at hnew
        obtain ⟨i, hi, rfl⟩ := List.mem_map.mp hnew
        exact Nat.not_lt.mpr (List.mem_range'_1.mp hi).1 (wf.lt_fresh _ hm)
      · rw [wf.treeAt_eq_nil hp] at hmem
        cases hmem
  children_eq := wf.children_addCopies copies hm

theorem WellFormed.siblings_addCopies (wf : d.WellFormed) (copies : Forest Label) (hm : m ∈ d.ids) :
    (d.addCopies copies).siblings m = d.siblings m := by
  rw [siblings, siblings, (wf.unchanged_addCopies copies hm).parent?_eq]
  cases hp : d.parent? m with
  | none => rfl
  | some p =>
    have hmem := wf.mem_ids_of_children (wf.parent?_eq_some_iff.mp hp)
    simp [wf.children_addCopies copies hmem]

theorem WellFormed.parent?_append_of_ne (wf : d.WellFormed) (hr : d.Receives n t) (hne : m ≠ n) :
    (d.append t n).parent? m = d.parent? m :=
  wf.parent?_congr (wf.grows_append hr).wellFormed fun p => by
    rw [wf.children_append hr]
    split
    · next hp => simp [hp, hne]
    · rfl

theorem WellFormed.unchanged_append (wf : d.WellFormed) (hr : d.Receives n t) (hm : m ∈ d.ids)
    (hne : m ≠ n) (ht : m ≠ t) : d.Unchanged (d.append t n) m where
  label?_eq := wf.label?_append hr hm
  parent?_eq := wf.parent?_append_of_ne hr hne
  children_eq := by
    rw [wf.children_append hr, if_neg ht]

theorem WellFormed.parent?_insertBeside_of_ne (wf : d.WellFormed) (hr : d.Receives n t)
    (hp : (d.parent? t).isSome) {put : Forest Node → Forest Node → Forest Node}
    (hput : ∀ f g, put f g = f ++ g ∨ put f g = g ++ f) (hne : m ≠ n) :
    (d.insertBeside put t n).parent? m = d.parent? m := by
  refine wf.parent?_congr (wf.grows_beside hr hput).wellFormed fun p => ?_
  obtain ⟨a, as, rfl, ha⟩ := wf.exists_treeAt hr.target_mem_ids
  obtain ⟨b, bs, rfl, hb⟩ := wf.exists_treeAt hr.mem_ids
  have hroots : m ∈ (put (tree b bs) (tree a as)).roots.map Node.id ↔ m = a.id := by
    rcases hput (tree b bs) (tree a as) with h | h <;> rw [h] <;> simp [hne]
  rw [wf.children_insertBeside hr hp hput, mem_flatMap_iff, ha, hb, hroots]
  grind

theorem WellFormed.unchanged_insertBeside (wf : d.WellFormed) (hr : d.Receives n t)
    {put : Forest Node → Forest Node → Forest Node} (hput : ∀ f g, put f g = f ++ g ∨ put f g = g ++ f)
    (hm : m ∈ d.ids) (hne : m ≠ n) (ht : t ∉ d.children m) :
    d.Unchanged (d.insertBeside put t n) m := by
  cases hp : d.parent? t with
  | none =>
    rw [insertBeside, hp]
    exact .refl d m
  | some q =>
    have hp : (d.parent? t).isSome := by rw [hp]; rfl
    exact ⟨wf.label?_insertBeside hr hp hput hm, wf.parent?_insertBeside_of_ne hr hp hput hne,
      by rw [wf.children_insertBeside hr hp hput, flatMap_eq_self ht]⟩

/-! ## Parts of a document -/

/-- Whether no node in `P` is changed. -/
structure Leaves (d d' : Document) (P : NodeId → Prop) : Prop where
  grows : d.Grows d'
  unchanged : ∀ n, P n → d.Unchanged d' n

namespace Leaves

theorem refl (wf : d.WellFormed) : d.Leaves d P :=
  ⟨.refl wf, fun n _ => .refl d n⟩

theorem trans (h : d.Leaves d' P) (h' : d'.Leaves d'' P) : d.Leaves d'' P :=
  ⟨h.grows.trans h'.grows, fun n hn => (h.unchanged n hn).trans (h'.unchanged n hn)⟩

theorem mono (h : d.Leaves d' P) (hQ : ∀ n, Q n → P n) : d.Leaves d' Q :=
  ⟨h.grows, fun n hn => h.unchanged n (hQ n hn)⟩

end Leaves

/-- Whether `n` is in the document, but neither `root` nor below it. -/
def Beyond (d : Document) (root n : NodeId) : Prop :=
  n ∈ d.ids ∧ n ∉ Xml.ids (d.treeAt root)

/-- Whether `n` is neither in `P` nor a child of a node in `P`. -/
structure Clear (d : Document) (P : NodeId → Prop) (n : NodeId) : Prop where
  not_mem : ¬ P n
  not_child : ∀ m, P m → n ∉ d.children m

section Rules

variable (wf : d.WellFormed)
include wf

theorem WellFormed.leaves_detach (hn : d.Clear P n) : d.Leaves (d.detach n) P :=
  ⟨wf.grows_detach n, fun m hm =>
    wf.unchanged_detach (fun he => hn.not_mem (he ▸ hm)) (hn.not_child m hm)⟩

theorem WellFormed.leaves_relabel (hn : ¬ P n) (change : Label → Label) :
    d.Leaves (d.relabel n change) P :=
  ⟨wf.grows_relabel n change, fun m hm =>
    wf.unchanged_relabel (fun he : m = n => hn (he ▸ hm)) change⟩

theorem WellFormed.leaves_takeChildren (hP : ∀ m, P m → m ∈ d.ids) (hn : ¬ P n)
    (hchildren : ∀ m ∈ d.children n, ¬ P m) : d.Leaves (d.takeChildren n).2 P :=
  ⟨wf.grows_takeChildren n, fun m hm => wf.unchanged_takeChildren (hP m hm)
    (fun he => hn (he ▸ hm)) fun hmem => hchildren m hmem hm⟩

theorem WellFormed.leaves_addCopies (hP : ∀ m, P m → m ∈ d.ids) (copies : Forest Label) :
    d.Leaves (d.addCopies copies) P :=
  ⟨wf.grows_addCopies copies, fun m hm => wf.unchanged_addCopies copies (hP m hm)⟩

theorem WellFormed.leaves_append (hP : ∀ m, P m → m ∈ d.ids) (hr : d.Receives n t) (hn : ¬ P n)
    (ht : ¬ P t) : d.Leaves (d.append t n) P :=
  ⟨wf.grows_append hr, fun m hm => wf.unchanged_append hr (hP m hm) (fun he => hn (he ▸ hm))
    fun he => ht (he ▸ hm)⟩

theorem WellFormed.leaves_insertBeside (hP : ∀ m, P m → m ∈ d.ids) (hr : d.Receives n t)
    {j : Forest Node → Forest Node → Forest Node} (hput : ∀ f g, j f g = f ++ g ∨ j f g = g ++ f)
    (hn : ¬ P n) (ht : d.Clear P t) : d.Leaves (d.insertBeside j t n) P :=
  ⟨wf.grows_beside hr hput, fun m hm => wf.unchanged_insertBeside hr hput (hP m hm)
    (fun he => hn (he ▸ hm)) (ht.not_child m hm)⟩

end Rules

/-! ## Parts that nothing connects to the rest -/

/-- What holds of a node if it holds of one of its children holds of a node if it holds of one of those
in its tree. -/
theorem WellFormed.of_mem_treeAt (wf : d.WellFormed) (hup : ∀ p n, n ∈ d.children p → P n → P p)
    (h : m ∈ Xml.ids (d.treeAt n)) (hm : P m) : P n := by
  have hn : n ∈ d.ids := by
    by_contra hn
    rw [wf.treeAt_eq_nil hn] at h
    cases h
  -- Below a node whose last children are the roots of a forest.
  have key : ∀ (f : Forest Node) (A : Node) (l : Forest Node), d.treeAt A.id = tree A (l ++ f) →
      m ∈ Xml.ids f → P A.id := by
    intro f
    induction f with
    | nil => simp
    | cons a as rest ihc ihr =>
      intro A l hA hmem
      have hchild : P a.id → P A.id := hup A.id a.id (by rw [children_of_tree hA]; simp [roots])
      rw [ids_cons, List.mem_cons, List.mem_append] at hmem
      rcases hmem with rfl | hmem | hmem
      · exact hchild hm
      · exact hchild (ihc a nil (wf.treeAt_child hA) hmem)
      · exact ihr A (l ++ tree a as) (by rw [hA, append_assoc]; rfl) hmem
  obtain ⟨A, X, rfl, hA⟩ := wf.exists_treeAt hn
  rw [hA, ids_tree, List.mem_cons] at h
  rcases h with rfl | h
  · exact hm
  · exact key X A nil hA h

/-- What goes from every node to its children goes to all nodes in its tree. -/
theorem WellFormed.forall_mem_treeAt (wf : d.WellFormed)
    (hdown : ∀ p n, n ∈ d.children p → P p → P n) (h : m ∈ Xml.ids (d.treeAt n)) (hn : P n) : P m :=
  by_contra fun hm => wf.of_mem_treeAt (P := fun i => ¬ P i)
    (fun p i hmem => mt (hdown p i hmem)) h hm hn

theorem WellFormed.mem_treeAt_trans (wf : d.WellFormed) (h : m ∈ Xml.ids (d.treeAt n))
    (h' : p ∈ Xml.ids (d.treeAt m)) : p ∈ Xml.ids (d.treeAt n) := by
  rw [← wf.treeAt_treeAt h] at h'
  exact Xml.mem_ids_of_mem_treeAt h'

/-- If no node loses a child, no tree loses a node. -/
theorem WellFormed.mem_treeAt_mono (wf : d.WellFormed) (wf' : d'.WellFormed)
    (hchildren : ∀ p, d.children p ⊆ d'.children p) (hn : n ∈ d'.ids) (h : m ∈ Xml.ids (d.treeAt n)) :
    m ∈ Xml.ids (d'.treeAt n) :=
  wf.forall_mem_treeAt (P := (· ∈ Xml.ids (d'.treeAt n)))
    (fun p _ hk hp => wf'.mem_treeAt_trans hp (wf'.mem_treeAt_of_mem_children (hchildren p hk))) h
    (wf'.mem_treeAt_self hn)

/-- Whether a child is in `P` just if its parent is. -/
structure Closed (d : Document) (P : NodeId → Prop) : Prop where
  mem_ids : ∀ n, P n → n ∈ d.ids
  iff_of_mem_children : ∀ p n, n ∈ d.children p → (P p ↔ P n)

namespace Closed

theorem of_leaves (hP : d.Closed P) (wf : d.WellFormed) (h : d.Leaves d' P) : d'.Closed P where
  mem_ids n hn := h.grows.mem_ids n (hP.mem_ids n hn)
  iff_of_mem_children p n hmem := by
    constructor
    · intro hp
      rw [(h.unchanged p hp).children_eq] at hmem
      exact (hP.iff_of_mem_children p n hmem).mp hp
    · intro hn
      have hparent := h.grows.wellFormed.parent?_eq_some_iff.mpr hmem
      rw [(h.unchanged n hn).parent?_eq, wf.parent?_eq_some_iff] at hparent
      exact (hP.iff_of_mem_children p n hparent).mpr hn

/-- All nodes of a document. -/
theorem all (wf : d.WellFormed) : d.Closed (· ∈ d.ids) where
  mem_ids _ h := h
  iff_of_mem_children _ _ hmem :=
    iff_of_true (wf.mem_ids_of_children hmem) (wf.mem_ids_of_mem_children hmem)

theorem clear (hP : d.Closed P) (hn : ¬ P n) : d.Clear P n :=
  ⟨hn, fun m hm hmem => hn ((hP.iff_of_mem_children m n hmem).mp hm)⟩

theorem not_mem_children (hP : d.Closed P) (hn : ¬ P n) : ∀ m ∈ d.children n, ¬ P m :=
  fun m hmem hm => hn ((hP.iff_of_mem_children n m hmem).mpr hm)

/-- The nodes of a tree are in `P` just if the one at its top is. -/
theorem iff_of_mem_treeAt (hP : d.Closed P) (wf : d.WellFormed) (h : m ∈ Xml.ids (d.treeAt n)) :
    P n ↔ P m :=
  ⟨wf.forall_mem_treeAt (fun p i hmem => (hP.iff_of_mem_children p i hmem).mp) h,
    wf.of_mem_treeAt (fun p i hmem => (hP.iff_of_mem_children p i hmem).mpr) h⟩

end Closed

end WordTemplate.Xml.Document
