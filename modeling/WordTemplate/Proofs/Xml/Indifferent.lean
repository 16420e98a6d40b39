import WordTemplate.Proofs.Xml.Each
import WordTemplate.Proofs.Xml.Editing
import WordTemplate.Proofs.Xml.Family

/-!
# Edits below nodes that take any children

A property of every node and its children (`Each`) need not be lenient to be kept by an edit. It is enough that the
nodes whose children change may have any children: `Indifferent`.

* `Movable`: a node whose parent takes any children.
* `Tracks.detach_of_movable`, `Tracks.relabel_of_movable`, `Tracks.insertBeside_of_movable`: edits at such a node.
* `Tracks.takeChildren_of_imp`, `Tracks.append_of_imp`: edits of what is below a node.
* `WellFormed.each_divideAfter`, `WellFormed.each_divideBefore`: divisions.
* `WellFormed.label?_divideAfter`, `WellFormed.label?_divideBefore`: no label changes in a division.
-/

namespace WordTemplate.Xml.Document

open Forest

variable {P : Node → List Node → Prop} {d₀ d : Document} {n target p : NodeId}

/-- Whether `P` holds of `n` with any children. -/
def Indifferent (P : Node → List Node → Prop) (d : Document) (n : NodeId) : Prop :=
  ∀ node cs, d.treeAt n = tree node cs → ∀ kids, P node kids

/-- Whether the parent of `n`, if there is one, takes any children. -/
def Movable (P : Node → List Node → Prop) (d : Document) (n : NodeId) : Prop :=
  ∀ p, d.parent? n = some p → d.Indifferent P p

/-- Other trees in the place of a node. -/
theorem Movable.each_put {up : List (Forest.Frame Node)} {a : Node} {l as r g : Forest Node} (hm : d.Movable P a.id)
    (wf : d.WellFormed) (h : Each P d.trees) (ht : d.trees = wrap up (l ++ cons a as r)) (hg : Each P g) :
    Each P (wrap up (l ++ (g ++ r))) := by
  rw [ht] at h
  have hin := each_append.mp (Each.of_wrap up h)
  have hall : Each P (l ++ (g ++ r)) := each_append.mpr ⟨hin.1, each_append.mpr ⟨hg, hin.2.2.2⟩⟩
  cases up with
  | nil => exact hall
  | cons fr up =>
    have hparent : d.parent? a.id = some fr.value.id := parent?_eq wf ht
    exact h.put_frame (hm _ hparent _ _ (treeAt_eq wf (trees_eq_of_cons ht)) _) hall

/-- Other trees in the place of a node, wherever it is. -/
theorem Movable.each_replace (hm : d.Movable P n) (wf : d.WellFormed) (h : Each P d.trees)
    {put : Node → Forest Node → Forest Node}
    (hput : ∀ node cs, d.treeAt n = tree node cs → P node cs.roots → Each P cs → Each P (put node cs)) :
    Each P (d.trees.replace (·.id == n) put) := by
  by_cases hn : n ∈ d.ids
  · obtain ⟨up, l, a, as, r, ht, rfl⟩ := exists_spot hn
    have hat := h
    rw [ht] at hat
    have hin := (each_append.mp (Each.of_wrap up hat)).2
    rw [replace_spot wf.ids_nodup ht]
    exact hm.each_put wf h ht (hput a as (treeAt_eq wf ht) hin.1 hin.2.1)
  · rwa [replace_eq_self_of_not_mem hn]

/-- What holds of every node holds of the one at `n`. -/
theorem WellFormed.each_of_treeAt {node : Node} {cs : Forest Node} (wf : d.WellFormed) (h : Each P d.trees)
    (ht : d.treeAt n = tree node cs) : P node cs.roots := by
  have hat := wf.each_treeAt h n
  rw [ht, each_tree] at hat
  exact hat.1

namespace Tracks

theorem relabel_of_movable (h : Tracks P d₀ d) (hm : d.Movable P n) {change : Label → Label}
    (hn : ∀ node cs, d.treeAt n = tree node cs → P node cs.roots →
      P { node with label := change node.label } cs.roots ∧ (change node.label).name? = node.label.name?) :
    Tracks P d₀ (d.relabel n change) := by
  have wf := h.wellFormed
  refine ⟨h.gains.relabel n fun l hl => ?_, ?_⟩
  · obtain ⟨node, cs, rfl, htree⟩ := wf.exists_treeAt (wf.mem_ids_of_label? hl)
    rw [label?, htree] at hl
    obtain rfl : node.label = l := Option.some.inj hl
    exact (hn node cs htree (wf.each_of_treeAt h.each htree)).2
  · rw [wf.relabel, remake_trees]
    exact hm.each_replace wf h.each fun node cs htree hnode hcs => each_tree.mpr ⟨(hn node cs htree hnode).1, hcs⟩

/-- A change of a label that the node does not have. -/
theorem relabel_of_eq (h : Tracks P d₀ d) {change : Label → Label}
    (hn : ∀ node cs, d.treeAt n = tree node cs → change node.label = node.label) :
    Tracks P d₀ (d.relabel n change) := by
  have wf := h.wellFormed
  refine ⟨h.gains.relabel n fun l hl => ?_, ?_⟩
  · obtain ⟨node, cs, rfl, htree⟩ := wf.exists_treeAt (wf.mem_ids_of_label? hl)
    rw [label?, htree] at hl
    obtain rfl : node.label = l := Option.some.inj hl
    rw [hn node cs htree]
  · rw [wf.relabel, remake_trees]
    refine h.each.replace_below fun node cs htree hnode hcs => ⟨cs, ?_, hnode, hcs⟩
    rw [← wf.treeAt] at htree
    rw [hn node cs htree]

theorem detach_of_movable (h : Tracks P d₀ d) (hm : d.Movable P n) : Tracks P d₀ (d.detach n) := by
  have wf := h.wellFormed
  refine ⟨h.gains.detach n, ?_⟩
  rw [wf.detach]
  split
  · rw [remake_trees]
    exact each_append.mpr ⟨wf.each_treeAt h.each n, hm.each_replace wf h.each fun _ _ _ _ _ => trivial⟩
  · exact h.each

theorem takeChildren_of_imp (h : Tracks P d₀ d)
    (hn : ∀ node cs, d.treeAt n = tree node cs → P node cs.roots → P node []) :
    Tracks P d₀ (d.takeChildren n).2 := by
  have wf := h.wellFormed
  refine ⟨h.gains.takeChildren n, ?_⟩
  rw [wf.takeChildren, remake_trees]
  refine each_append.mpr ⟨(wf.each_treeAt h.each n).firstChildren, h.each.replace_below ?_⟩
  intro node cs htree hnode _
  rw [← wf.treeAt] at htree
  exact ⟨nil, rfl, hn node cs htree hnode, trivial⟩

/-- Changing what is below a node while a tree without parent is taken from the top. -/
theorem each_prune_replace (wf : d.WellFormed) (h : Each P d.trees) (hr : d.Receives n target)
    {put : Node → Forest Node → Forest Node}
    (hput : ∀ node cs, d.treeAt target = tree node cs → P node cs.roots → Each P cs →
      ∃ cs', put node cs = tree node cs' ∧ P node cs'.roots ∧ Each P cs') :
    Each P ((d.trees.prune (·.id == n)).replace (·.id == target) put) := by
  refine (hr.each_prune wf h).replace_below fun node cs htree hnode hcs => ?_
  rw [hr.treeAt_prune wf hr.target_not_mem] at htree
  exact hput node cs htree hnode hcs

theorem append_of_imp (h : Tracks P d₀ d) (hr : d.Receives n target)
    (hnew : ∀ i ∈ Xml.ids (d.treeAt n), d₀.fresh ≤ i.number)
    (hn : ∀ node cs, d.treeAt target = tree node cs → P node cs.roots → P node (cs.roots ++ (d.treeAt n).roots)) :
    Tracks P d₀ (d.append target n) := by
  have wf := h.wellFormed
  refine ⟨h.gains.append hr hnew, ?_⟩
  rw [wf.append_eq hr, remake_trees]
  refine each_prune_replace wf h.each hr fun node cs htree hnode hcs => ⟨_, rfl, ?_, ?_⟩
  · rw [roots_append]
    exact hn node cs htree hnode
  · exact each_append.mpr ⟨hcs, wf.each_treeAt h.each n⟩

end Tracks

/-- The parent of a node takes a tree that the node takes beside it. -/
theorem Receives.parent (hr : d.Receives n target) (wf : d.WellFormed) (hp : d.parent? target = some p) :
    d.Receives n p where
  mem_ids := hr.mem_ids
  parent?_eq := hr.parent?_eq
  target_mem_ids := by
    obtain ⟨A, l, a, as, r, hA, -, -⟩ := wf.exists_of_parent? hp
    exact (wf.mem_ids_of_treeAt hA).1
  target_not_mem hmem := hr.target_not_mem (wf.mem_of_parent?_mem hp hmem)

/-- The tree that is put in stays as it is. -/
theorem Receives.treeAt_insertBeside (hr : d.Receives n target) (wf : d.WellFormed)
    {put : Forest Node → Forest Node → Forest Node} (hput : ∀ f g, put f g = f ++ g ∨ put f g = g ++ f) :
    (d.insertBeside put target n).treeAt n = d.treeAt n := by
  cases hp : d.parent? target with
  | none => rw [Document.insertBeside, hp]
  | some p =>
    rw [wf.treeAt_insertBeside hr (by rw [hp]; rfl) hput, if_pos (.inl (wf.mem_treeAt_self hr.mem_ids))]

/-- Putting trees in the place of a root. -/
theorem each_replaceRoot {q : Node → Bool} {put : Node → Forest Node → Forest Node} {f : Forest Node}
    (h : Each P f) (hput : ∀ node cs, P node cs.roots → Each P cs → Each P (put node cs)) :
    Each P (f.replaceRoot q put) := by
  induction f with
  | nil => trivial
  | cons a cs rest _ ih =>
    rw [replaceRoot]
    split
    · exact each_append.mpr ⟨hput a cs h.1 h.2.1, h.2.2⟩
    · exact ⟨h.1, h.2.1, ih h.2.2⟩

namespace Tracks

theorem insertBeside_of_movable (h : Tracks P d₀ d) (hm : d.Movable P target) (hr : d.Receives n target)
    {put : Forest Node → Forest Node → Forest Node} (hput : ∀ f g, put f g = f ++ g ∨ put f g = g ++ f)
    (hnew : ∀ i ∈ Xml.ids (d.treeAt n), d₀.fresh ≤ i.number) :
    Tracks P d₀ (d.insertBeside put target n) := by
  have wf := h.wellFormed
  refine ⟨h.gains.insertBeside hr hput hnew, ?_⟩
  rw [Document.insertBeside]
  split
  · exact h.each
  · next p hp =>
    have hne : target ≠ n := by
      rintro rfl
      exact hr.target_not_mem (wf.mem_treeAt_self hr.mem_ids)
    have hrp := hr.parent wf hp
    rw [if_neg hne, wf.moveTo_eq hrp, remake_trees]
    refine each_prune_replace wf h.each hrp fun node cs htree _ hcs => ⟨_, rfl, hm p hp node cs htree _, ?_⟩
    refine each_replaceRoot hcs fun sibling below hsibling hbelow => ?_
    have hmoved := wf.each_treeAt h.each n
    have hstays : Each P (tree sibling below) := each_tree.mpr ⟨hsibling, hbelow⟩
    rcases hput (d.treeAt n) (tree sibling below) with he | he <;> rw [he]
    · exact each_append.mpr ⟨hmoved, hstays⟩
    · exact each_append.mpr ⟨hstays, hmoved⟩

end Tracks

/-! ## Dividing -/

/-- A property of nodes alone asks nothing of children. -/
theorem WellFormed.movable_of_forall {p : Node → Prop} (wf : d.WellFormed)
    (h : Each (fun node _ => p node) d.trees) (n : NodeId) : d.Movable (fun node _ => p node) n :=
  fun _ _ _ _ htree _ => wf.each_of_treeAt h htree

section Divide

variable {E : Label → Prop} {place : NodeId}

section Each

variable (wf : d.WellFormed) (h : Each P d.trees) (hP : Divisible P E d.fresh) (hm : d.Movable P n)
  (hE : ∀ l, d.label? place = some l → E l)
include wf h hP hm hE

theorem WellFormed.each_divideAfter : Each P (d.divideAfter n place).2.trees := by
  by_cases hn : n ∈ d.ids
  · obtain ⟨a, as, rfl, ht⟩ := wf.exists_treeAt hn
    obtain ⟨-, heq⟩ | ⟨δ, -, rfl, -, -, heq⟩ := wf.divideAfter_cases ht place <;> rw [heq]
    · exact h
    · have hparts := hP.each_after place (ht ▸ wf.each_treeAt h a.id) fun node hnode hid =>
        hE _ (hid ▸ wf.label?_of_mem_treeAt (ht ▸ hnode))
      simp only [each_append] at hparts
      obtain ⟨hkept, hlower, -, hdropped⟩ := hparts
      exact each_append.mpr ⟨hdropped, hm.each_replace wf h fun _ _ _ _ _ => each_append.mpr ⟨hkept, hlower⟩⟩
  · rw [divideAfter, if_neg fun hin => hn (wf.mem_ids_of_isAncestor hin.2)]
    exact h

theorem WellFormed.each_divideBefore : Each P (d.divideBefore n place).2.trees := by
  by_cases hn : n ∈ d.ids
  · obtain ⟨a, as, rfl, ht⟩ := wf.exists_treeAt hn
    obtain ⟨-, heq⟩ | ⟨δ, -, rfl, -, -, heq⟩ := wf.divideBefore_cases ht place <;> rw [heq]
    · exact h
    · have hparts := hP.each_before place (ht ▸ wf.each_treeAt h a.id) fun node hnode hid =>
        hE _ (hid ▸ wf.label?_of_mem_treeAt (ht ▸ hnode))
      simp only [each_append] at hparts
      obtain ⟨hkept, hlower, -, hdropped⟩ := hparts
      exact each_append.mpr ⟨hdropped, hm.each_replace wf h fun _ _ _ _ _ => each_append.mpr ⟨hlower, hkept⟩⟩
  · rw [divideBefore, if_neg fun hin => hn (wf.mem_ids_of_isAncestor hin.2)]
    exact h

end Each

/-! ### Labels of nodes that are there -/

/-- Whether a node has the label that it has in `d`, if it is there. -/
def Labels (d : Document) (node : Node) : Prop :=
  ∀ l, d.label? node.id = some l → node.label = l

theorem WellFormed.each_labels (wf : d.WellFormed) : Each (fun node _ => d.Labels node) d.trees :=
  each_iff_forall.mpr fun _ hnode _ hl => Option.some.inj ((wf.label?_of_mem hnode).symm.trans hl)

theorem WellFormed.labels_new (wf : d.WellFormed) {node : Node} (h : d.fresh ≤ node.id.number) : d.Labels node :=
  fun _ hl => absurd (wf.lt_fresh _ (wf.mem_ids_of_label? hl)) (Nat.not_lt.mpr h)

theorem WellFormed.divisible_labels (wf : d.WellFormed) :
    Divisible (fun node _ => d.Labels node) (fun _ => True) d.fresh where
  above hnode _ _ := ⟨trivial, fun _ => ⟨hnode, fun _ hk => wf.labels_new hk⟩⟩
  copy hk _ := each_iff_forall.mpr fun node hnode => wf.labels_new (by
    have hmem : node.id ∈ Xml.ids (identify _ _) := List.mem_map_of_mem hnode
    rw [ids_identify, List.mem_map] at hmem
    obtain ⟨i, hi, hid⟩ := hmem
    rw [← hid]
    exact Nat.le_trans hk (List.mem_range'_1.mp hi).1)

theorem Grows.label?_of_each {d' : Document} {m : NodeId} (h : d.Grows d') (wf : d.WellFormed)
    (he : Each (fun node _ => d.Labels node) d'.trees) (hm : m ∈ d.ids) : d'.label? m = d.label? m := by
  obtain ⟨node, cs, rfl, ht⟩ := wf.exists_treeAt hm
  obtain ⟨node', cs', hid, ht'⟩ := h.wellFormed.exists_treeAt (h.mem_ids _ hm)
  have hl : d.label? node.id = some node.label := by rw [label?, ht]; rfl
  have hl' : d'.label? node.id = some node'.label := by rw [label?, ht']; rfl
  rw [hl', hl, h.wellFormed.each_of_treeAt he ht' node.label (by rw [hid]; exact hl)]

theorem WellFormed.label?_divideAfter {m : NodeId} (wf : d.WellFormed) (hm : m ∈ d.ids) :
    (d.divideAfter n place).2.label? m = d.label? m :=
  (wf.allots_divideAfter n place).grows.label?_of_each wf (wf.each_divideAfter wf.each_labels wf.divisible_labels
    (wf.movable_of_forall wf.each_labels n) fun _ _ => trivial) hm

theorem WellFormed.label?_divideBefore {m : NodeId} (wf : d.WellFormed) (hm : m ∈ d.ids) :
    (d.divideBefore n place).2.label? m = d.label? m :=
  (wf.allots_divideBefore n place).grows.label?_of_each wf (wf.each_divideBefore wf.each_labels wf.divisible_labels
    (wf.movable_of_forall wf.each_labels n) fun _ _ => trivial) hm

/-- The parts that come of an element have its label. -/
theorem WellFormed.label?_of_mem_divideAfter {m : NodeId} (wf : d.WellFormed) (hn : n ∈ d.ids)
    (hm : m ∈ (d.divideAfter n place).1) : (d.divideAfter n place).2.label? m = d.label? n := by
  have hself : (d.divideAfter n place).2.label? n = d.label? n := wf.label?_divideAfter hn
  have wf' := (wf.allots_divideAfter n place).grows.wellFormed
  obtain ⟨a, as, rfl, ht⟩ := wf.exists_treeAt hn
  obtain ⟨-, heq⟩ | ⟨δ, hplace, hδ, -, -, heq⟩ := wf.divideAfter_cases ht place <;> rw [heq] at hm hself wf' ⊢
  · rw [List.mem_singleton.mp hm]
  · rcases List.mem_cons.mp hm with rfl | hm
    · exact hself
    · obtain ⟨b, hb, rfl⟩ := List.mem_map.mp hm
      have hne := ((wf.isAncestor_iff ht place).mpr hplace).1
      have hlabel : b.label = a.label := by
        rw [← hδ, tree, after_of_mem hne hplace] at hb
        exact label_of_mem_lower hb
      obtain ⟨up, l, c, cs, r, hspot, hid⟩ := exists_spot hn
      have hmem : b ∈ (d.settle a.id δ (δ.kept ++ δ.lower)).trees.toList := by
        have hb := (roots_sublist δ.lower).mem hb
        rw [settle, ← hid, replace_spot wf.ids_nodup hspot]
        simp [toList_wrap, hb]
      rw [wf'.label?_of_mem hmem, hlabel, label?, ht]
      rfl

end Divide

end WordTemplate.Xml.Document
