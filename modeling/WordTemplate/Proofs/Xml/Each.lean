import WordTemplate.Proofs.Forest.Each
import WordTemplate.Proofs.Xml.Gains

/-!
# Edits that keep a property of every node

A lenient property of every node of a document and its children (`Each`) is kept by an edit if it is
kept at the node that is edited. Which nodes are admissible as children depends on their labels.

* `Tracks`: the property holds of all nodes, and since some earlier document trees have only gained
  new nodes.
* `Tracks.relabel`, `Tracks.detach`, `Tracks.takeChildren`, `Tracks.addCopies`, `Tracks.append`,
  `Tracks.insertBeside`: the edits.
-/

namespace WordTemplate.Xml.Document

open Forest

variable {P : Node → List Node → Prop} {K : Label → Prop} {d₀ d : Document} {n target p : NodeId}

/-- A property of every node that is lenient, with children admitted by their labels. -/
abbrev Permits (P : Node → List Node → Prop) (K : Label → Prop) : Prop :=
  Lenient P fun node => K node.label

theorem WellFormed.label?_of_mem (wf : d.WellFormed) {node : Node} (h : node ∈ d.trees.toList) :
    d.label? node.id = some node.label := by
  have hany : d.trees.any (· == node) = true := any_iff.mpr ⟨node, h, beq_self_eq_true node⟩
  obtain ⟨up, l, a, cs, r, htrees, ha, -, -⟩ := exists_wrap hany
  obtain rfl : a = node := by simpa using ha
  exact label?_eq wf htrees

theorem WellFormed.each_treeAt (wf : d.WellFormed) (h : Each P d.trees) (n : NodeId) :
    Each P (d.treeAt n) := by
  rw [wf.treeAt]
  exact h.treeAt _

theorem WellFormed.mem_toList_of_treeAt (wf : d.WellFormed) {node : Node}
    (h : node ∈ (d.treeAt n).toList) : node ∈ d.trees.toList :=
  each_iff_forall.mp (wf.each_treeAt (each_iff_forall.mpr fun _ h => h) n) node h

theorem WellFormed.label?_of_mem_treeAt (wf : d.WellFormed) {node : Node}
    (h : node ∈ (d.treeAt n).toList) : d.label? node.id = some node.label :=
  wf.label?_of_mem (wf.mem_toList_of_treeAt h)

theorem WellFormed.mem_descendants_iff (wf : d.WellFormed) :
    n ∈ d.descendants p ↔ n ∈ Xml.ids (d.treeAt p) ∧ n ≠ p := by
  by_cases hp : p ∈ d.ids
  · obtain ⟨node, cs, rfl, htree⟩ := wf.exists_treeAt hp
    have hnd := wf.nodup_treeAt node.id
    rw [htree, ids_tree, List.nodup_cons] at hnd
    show n ∈ Xml.ids (d.treeAt node.id).firstChildren ↔ _
    rw [htree, ids_tree, List.mem_cons]
    refine ⟨fun h => ⟨.inr h, fun he => hnd.1 (he ▸ h)⟩, fun h => h.1.resolve_left h.2⟩
  · show n ∈ Xml.ids (d.treeAt p).firstChildren ↔ _
    rw [wf.treeAt_eq_nil hp]
    simp [firstChildren]

theorem WellFormed.nodup_descendants (wf : d.WellFormed) : (d.descendants p).Nodup := by
  have hnodup := wf.nodup_treeAt p
  rw [descendants, nodesBelow]
  cases htree : d.treeAt p with
  | nil => exact List.nodup_nil
  | cons a cs rest =>
    rw [htree, ids_cons, List.nodup_cons] at hnodup
    exact (List.nodup_append.mp hnodup.2).1

theorem WellFormed.label?_of_mem_nodesBelow (wf : d.WellFormed) {node : Node}
    (h : node ∈ d.nodesBelow p) : d.label? node.id = some node.label := by
  refine wf.label?_of_mem_treeAt (n := p) ?_
  rw [nodesBelow] at h
  cases ht : d.treeAt p with
  | nil =>
    rw [ht] at h
    cases h
  | cons a cs rest =>
    rw [ht] at h
    simp only [toList, List.mem_cons, List.mem_append]
    exact .inr (.inl h)

theorem WellFormed.mem_nodesBelow_iff (wf : d.WellFormed) {node : Node} :
    node ∈ d.nodesBelow p ↔
      node.id ∈ d.descendants p ∧ d.label? node.id = some node.label := by
  refine ⟨fun h => ⟨List.mem_map_of_mem h, wf.label?_of_mem_nodesBelow h⟩, fun ⟨hmem, hlabel⟩ => ?_⟩
  obtain ⟨⟨id, label⟩, hnode, hid⟩ := List.mem_map.mp hmem
  have hlabel' := wf.label?_of_mem_nodesBelow hnode
  obtain rfl : id = node.id := hid
  obtain rfl : node.label = label := Option.some.inj (hlabel.symm.trans hlabel')
  exact hnode

/-- The other trees, when one from the top is taken away. -/
theorem Receives.each_prune (hr : d.Receives n target) (wf : d.WellFormed) (h : Each P d.trees) :
    Each P (d.trees.prune (·.id == n)) := by
  obtain ⟨l, node, cs, r, htrees, rfl⟩ := wf.exists_root hr.mem_ids hr.parent?_eq
  rw [prune_spot wf.ids_nodup (eq_wrap_nil htrees)]
  rw [htrees] at h
  have hin := each_append.mp h
  exact each_append.mpr ⟨hin.1, hin.2.2.2⟩

/-- Whether `P` holds of every node of `d` and its children, and trees have only gained new nodes
since `d₀`. -/
structure Tracks (P : Node → List Node → Prop) (d₀ d : Document) : Prop where
  gains : d₀.Gains d
  each : Each P d.trees

namespace Tracks

theorem refl (wf : d.WellFormed) (h : Each P d.trees) : Tracks P d d :=
  ⟨.refl wf, h⟩

theorem wellFormed (h : Tracks P d₀ d) : d.WellFormed :=
  h.gains.grows.wellFormed

theorem trans {d' : Document} (h : Tracks P d₀ d) (h' : Tracks P d d') : Tracks P d₀ d' :=
  ⟨h.gains.trans h'.gains, h'.each⟩

/-- Edits one after another. -/
theorem foldl {α : Type} {f : Document → α → Document} {l : List α} (wf : d.WellFormed) (h : Each P d.trees)
    (hf : ∀ d', Tracks P d d' → ∀ a ∈ l, Tracks P d' (f d' a)) : Tracks P d (l.foldl f d) := by
  induction l generalizing d with
  | nil => exact refl wf h
  | cons a l ih =>
    have ha := hf d (refl wf h) a (List.mem_cons_self ..)
    exact ha.trans (ih ha.wellFormed ha.each fun d' hd' b hb => hf d' (ha.trans hd') b (List.mem_cons_of_mem _ hb))

theorem addCopies {copies : Forest Label} (h : Tracks P d₀ d)
    (hc : Each P (identify d.fresh copies)) : Tracks P d₀ (d.addCopies copies) := by
  refine ⟨h.gains.addCopies copies, ?_⟩
  rw [addCopies_eq, remake_trees]
  exact each_append.mpr ⟨hc, h.each⟩

section Permits

variable (hP : Permits P K)
include hP

theorem relabel (h : Tracks P d₀ d) {change : Label → Label}
    (hn : ∀ node cs, d.treeAt n = tree node cs → P node cs.roots →
      P { node with label := change node.label } cs.roots ∧
        (K node.label → K (change node.label)) ∧ (change node.label).name? = node.label.name?) :
    Tracks P d₀ (d.relabel n change) := by
  have wf := h.wellFormed
  refine ⟨h.gains.relabel n fun l hl => ?_, ?_⟩
  · -- The node stands in the document with its children.
    obtain ⟨node, cs, rfl, htree⟩ := wf.exists_treeAt (wf.mem_ids_of_label? hl)
    have hat := wf.each_treeAt h.each node.id
    rw [label?, htree] at hl
    rw [htree, each_tree] at hat
    obtain rfl : node.label = l := Option.some.inj hl
    exact (hn node cs htree hat.1).2.2
  · rw [wf.relabel, remake_trees]
    refine h.each.replace hP fun node _ cs _ htree hnode hcs => ?_
    rw [← wf.treeAt] at htree
    obtain ⟨hP', hK, -⟩ := hn node cs htree hnode
    exact ⟨each_tree.mpr ⟨hP', hcs⟩, fun hk b hb => by
      obtain rfl : b = _ := by simpa using hb
      exact hK hk⟩

theorem detach (h : Tracks P d₀ d) (n : NodeId) : Tracks P d₀ (d.detach n) := by
  refine ⟨h.gains.detach n, ?_⟩
  rw [h.wellFormed.detach]
  split
  · rw [remake_trees]
    exact each_append.mpr ⟨h.wellFormed.each_treeAt h.each n, h.each.prune hP⟩
  · exact h.each

theorem takeChildren (h : Tracks P d₀ d)
    (hn : ∀ l kids, d.label? n = some l → P ⟨n, l⟩ kids → P ⟨n, l⟩ []) :
    Tracks P d₀ (d.takeChildren n).2 := by
  have wf := h.wellFormed
  refine ⟨h.gains.takeChildren n, ?_⟩
  rw [wf.takeChildren, remake_trees]
  refine each_append.mpr ⟨(wf.each_treeAt h.each n).firstChildren, h.each.replace hP ?_⟩
  intro node hmem cs hid _ hnode _
  obtain rfl : node.id = n := by simpa using hid
  exact ⟨each_tree.mpr ⟨hn node.label _ (wf.label?_of_mem hmem) hnode, trivial⟩, fun hk b hb => by
    obtain rfl : b = node := by simpa using hb
    exact hk⟩

theorem append (h : Tracks P d₀ d) (hr : d.Receives n target)
    (hnew : ∀ i ∈ Xml.ids (d.treeAt n), d₀.fresh ≤ i.number)
    (hn : ∀ node cs, d.treeAt target = tree node cs → P node cs.roots →
      P node (cs.roots ++ (d.treeAt n).roots)) :
    Tracks P d₀ (d.append target n) := by
  have wf := h.wellFormed
  refine ⟨h.gains.append hr hnew, ?_⟩
  rw [wf.append_eq hr, remake_trees]
  refine (hr.each_prune wf h.each).replace hP fun node _ cs _ htree hnode hcs => ?_
  rw [hr.treeAt_prune wf hr.target_not_mem] at htree
  have hput := hn node cs htree hnode
  refine ⟨each_tree.mpr ⟨by simpa using hput,
    each_append.mpr ⟨hcs, wf.each_treeAt h.each n⟩⟩, fun hk b hb => ?_⟩
  obtain rfl : b = node := by simpa using hb
  exact hk

theorem insertBeside (h : Tracks P d₀ d) (hr : d.Receives n target)
    {put : Forest Node → Forest Node → Forest Node} (hput : ∀ f g, put f g = f ++ g ∨ put f g = g ++ f)
    (hnew : ∀ i ∈ Xml.ids (d.treeAt n), d₀.fresh ≤ i.number)
    (hK : ∀ node ∈ (d.treeAt n).roots, K node.label) :
    Tracks P d₀ (d.insertBeside put target n) := by
  have wf := h.wellFormed
  refine ⟨h.gains.insertBeside hr hput hnew, ?_⟩
  cases hp : d.parent? target with
  | none =>
    rw [Document.insertBeside, hp]
    exact h.each
  | some parent =>
    have hp : (d.parent? target).isSome := by rw [hp]; rfl
    rw [wf.insertBeside_eq hr hp, remake_trees]
    refine (hr.each_prune wf h.each).replace hP fun node _ cs _ _ hnode hcs => ?_
    have hmoved := wf.each_treeAt h.each n
    refine ⟨?_, fun hk b hb => ?_⟩
    · rcases hput (d.treeAt n) (tree node cs) with he | he <;> rw [he]
      · exact each_append.mpr ⟨hmoved, each_tree.mpr ⟨hnode, hcs⟩⟩
      · exact each_append.mpr ⟨each_tree.mpr ⟨hnode, hcs⟩, hmoved⟩
    · have hb : b ∈ (d.treeAt n).roots ∨ b = node := by
        rcases hput (d.treeAt n) (tree node cs) with he | he <;> rw [he] at hb <;> simp at hb <;> tauto
      rcases hb with hb | rfl
      · exact hK b hb
      · exact hk

end Permits

end Tracks

end WordTemplate.Xml.Document
