import WordTemplate.Proofs.Xml.Scope

/-!
# Trees that gain only new nodes

In the course of processing, nodes go into the tree at another node only when they are made: a tree
loses nodes or gets new ones, but none that were elsewhere before, and no node gets another name.
`Gains` says this of the trees at all nodes of a document.
-/

namespace WordTemplate.Xml.Document

open Forest

variable {d₀ d d' : Document} {n m target : NodeId}

/-- A change of a tree below its top leaves the label at the top. -/
theorem WellFormed.label?_of_replace (wf : d.WellFormed) (hm : m ∈ d.ids)
    {put : Node → Forest Node → Forest Node}
    (h : d'.treeAt m = (d.treeAt m).replace (·.id == n) put)
    (hput : m = n → ∀ node cs, ∃ cs' : Forest Node, put node cs = tree node cs') :
    d'.label? m = d.label? m := by
  obtain ⟨node, cs, rfl, ht⟩ := wf.exists_treeAt hm
  rw [label?, label?, h, ht, tree, replace_cons]
  by_cases hn : node.id = n
  · obtain ⟨cs', hcs⟩ := hput hn node cs
    simp [hn, hcs, tree, roots]
  · simp only [beq_iff_eq, hn, if_false]
    split <;> simp [roots]

theorem WellFormed.mem_ids_of_label? (wf : d.WellFormed) {l : Label} (h : d.label? n = some l) :
    n ∈ d.ids := by
  by_contra hn
  rw [label?, wf.treeAt_eq_nil hn] at h
  simp [roots] at h

theorem isNamed_iff {name : String} :
    d.isNamed n name = true ↔ ∃ l, d.label? n = some l ∧ l.isNamed name = true := by
  rw [isNamed, name?]
  cases d.label? n <;> simp [Label.isNamed]

theorem WellFormed.mem_ids_of_isNamed (wf : d.WellFormed) {name : String}
    (h : d.isNamed n name = true) : n ∈ d.ids := by
  obtain ⟨l, hl, -⟩ := isNamed_iff.mp h
  exact wf.mem_ids_of_label? hl

theorem WellFormed.label?_relabel_self (wf : d.WellFormed) (n : NodeId)
    (change : Label → Label) : (d.relabel n change).label? n = (d.label? n).map change := by
  by_cases hn : n ∈ d.ids
  · obtain ⟨node, cs, rfl, ht⟩ := wf.exists_treeAt hn
    rw [label?, label?, wf.treeAt_relabel, ht, tree, replace_cons]
    simp [roots]
  · have hnil : (d.relabel n change).treeAt n = nil := by
      rw [wf.treeAt_relabel, wf.treeAt_eq_nil hn]
      exact replace_eq_self_of_not_mem (by simp)
    rw [label?, label?, hnil, wf.treeAt_eq_nil hn]
    rfl

theorem WellFormed.label?_relabel_ne (wf : d.WellFormed) (hne : m ≠ n) (change : Label → Label) :
    (d.relabel n change).label? m = d.label? m := by
  by_cases hm : m ∈ d.ids
  · exact wf.label?_of_replace hm (wf.treeAt_relabel n m change) fun he => absurd he hne
  · rw [label?, label?, wf.treeAt_relabel, wf.treeAt_eq_nil hm]
    rfl

/-- Putting a tree beside a node, if that has a parent. -/
theorem WellFormed.grows_beside (wf : d.WellFormed) (hr : d.Receives n target)
    {put : Forest Node → Forest Node → Forest Node} (hput : ∀ f g, put f g = f ++ g ∨ put f g = g ++ f) :
    d.Grows (d.insertBeside put target n) := by
  cases hp : d.parent? target with
  | none =>
    rw [insertBeside, hp]
    exact .refl wf
  | some parent =>
    refine wf.grows_insertBeside hr (by rw [hp]; rfl) fun f g => ?_
    rcases hput f g with he | he <;> rw [he, ids_append]
    exact List.perm_append_comm

/-- Whether every tree of `d₀` has in `d` only nodes of before and new ones, and every node the name
that it had. -/
structure Gains (d₀ d : Document) : Prop where
  grows : d₀.Grows d
  mem_or_fresh : ∀ m ∈ d₀.ids, ∀ i ∈ Xml.ids (d.treeAt m),
    i ∈ Xml.ids (d₀.treeAt m) ∨ d₀.fresh ≤ i.number
  name?_eq : ∀ m ∈ d₀.ids, d.name? m = d₀.name? m

namespace Gains

theorem refl (wf : d.WellFormed) : d.Gains d :=
  ⟨.refl wf, fun _ _ _ hi => .inl hi, fun _ _ => rfl⟩

/-- One more step, after which trees have at most new nodes in addition. -/
theorem step (h : d₀.Gains d) (hg : d.Grows d')
    (hmem : ∀ m ∈ d₀.ids, ∀ i ∈ Xml.ids (d'.treeAt m), i ∈ Xml.ids (d.treeAt m) ∨ d₀.fresh ≤ i.number)
    (hname : ∀ m ∈ d.ids, d'.name? m = d.name? m) : d₀.Gains d' where
  grows := h.grows.trans hg
  mem_or_fresh m hm i hi := by
    rcases hmem m hm i hi with hi | hi
    · exact h.mem_or_fresh m hm i hi
    · exact .inr hi
  name?_eq m hm := (hname m (h.grows.mem_ids m hm)).trans (h.name?_eq m hm)

theorem trans (h : d₀.Gains d) (h' : d.Gains d') : d₀.Gains d' :=
  h.step h'.grows (fun m hm i hi =>
    (h'.mem_or_fresh m (h.grows.mem_ids m hm) i hi).imp_right (Nat.le_trans h.grows.fresh_le))
    h'.name?_eq

/-- What is not in a tree stays out of it, unless it is new. -/
theorem not_mem (h : d₀.Gains d) (hm : m ∈ d₀.ids) (hn : n ∉ Xml.ids (d₀.treeAt m))
    (hlt : n.number < d₀.fresh) : n ∉ Xml.ids (d.treeAt m) := by
  intro hmem
  rcases h.mem_or_fresh m hm n hmem with hmem | hle
  · exact hn hmem
  · omega

theorem isNamed_eq (h : d₀.Gains d) (hm : m ∈ d₀.ids) (name : String) :
    d.isNamed m name = d₀.isNamed m name := by
  rw [isNamed, isNamed, h.name?_eq m hm]

theorem detach (h : d₀.Gains d) (n : NodeId) : d₀.Gains (d.detach n) := by
  have wf := h.grows.wellFormed
  refine h.step (wf.grows_detach n) (fun m _ i hi => .inl ?_) fun m hm => ?_
  · rw [wf.treeAt_detach] at hi
    split at hi
    · next he => rwa [he]
    · exact (mem_ids_replace_of (g := nil) (by simp) hi).resolve_right (by simp)
  · have ht := wf.treeAt_detach n m
    split at ht
    · next he => rw [name?, name?, label?, label?, ht, he]
    · next he => rw [name?, name?, wf.label?_of_replace hm ht fun h => absurd h he]

theorem relabel (h : d₀.Gains d) (n : NodeId) {change : Label → Label}
    (hchange : ∀ l, d.label? n = some l → (change l).name? = l.name?) :
    d₀.Gains (d.relabel n change) := by
  have wf := h.grows.wellFormed
  refine h.step (wf.grows_relabel n change) (fun m _ i hi => .inl ?_) fun m hm => ?_
  · rw [wf.treeAt_relabel] at hi
    exact (mem_ids_replace_of (g := nil) (by simp) hi).resolve_right (by simp)
  · have ht := wf.treeAt_relabel n m change
    by_cases he : m = n
    · subst he
      obtain ⟨node, cs, hid, htree⟩ := wf.exists_treeAt hm
      have hl : d.label? m = some node.label := by rw [label?, htree]; rfl
      rw [name?, name?, hl, label?, ht, htree]
      simp only [tree, replace_cons, hid, beq_self_eq_true, if_true]
      exact hchange _ hl
    · rw [name?, name?, wf.label?_of_replace hm ht fun h => absurd h he]

theorem takeChildren (h : d₀.Gains d) (n : NodeId) : d₀.Gains (d.takeChildren n).2 := by
  have wf := h.grows.wellFormed
  refine h.step (wf.grows_takeChildren n) (fun m _ i hi => .inl ?_) fun m hm => ?_
  · rw [wf.treeAt_takeChildren] at hi
    split at hi
    · exact hi
    · exact (mem_ids_replace_of (g := nil) (by simp) hi).resolve_right (by simp)
  · have ht := wf.treeAt_takeChildren n m
    split at ht
    · rw [name?, name?, label?, label?, ht]
    · rw [name?, name?, wf.label?_of_replace hm ht fun _ node _ => ⟨nil, rfl⟩]

theorem addCopies (h : d₀.Gains d) (copies : Forest Label) : d₀.Gains (d.addCopies copies) := by
  have wf := h.grows.wellFormed
  refine h.step (wf.grows_addCopies copies) (fun m hm i hi => .inl ?_) fun m hm => ?_
  · rwa [wf.treeAt_addCopies_of_mem copies (h.grows.mem_ids m hm)] at hi
  · rw [name?, name?, label?, label?, wf.treeAt_addCopies_of_mem copies hm]

/-- Putting a new tree behind the children of a node. -/
theorem append (h : d₀.Gains d) (hr : d.Receives n target)
    (hn : ∀ i ∈ Xml.ids (d.treeAt n), d₀.fresh ≤ i.number) : d₀.Gains (d.append target n) := by
  have wf := h.grows.wellFormed
  refine h.step (wf.grows_append hr) (fun m _ i hi => ?_) fun m hm => ?_
  · rw [wf.treeAt_append hr] at hi
    split at hi
    · exact .inl hi
    · exact (mem_ids_replace_of (g := d.treeAt n) (by simp; tauto) hi).imp_right (hn i)
  · have ht := wf.treeAt_append hr m
    split at ht
    · rw [name?, name?, label?, label?, ht]
    · rw [name?, name?, wf.label?_of_replace hm ht fun _ node cs => ⟨cs ++ d.treeAt n, rfl⟩]

/-- Putting a new tree beside a node. -/
theorem insertBeside (h : d₀.Gains d) (hr : d.Receives n target)
    {put : Forest Node → Forest Node → Forest Node} (hput : ∀ f g, put f g = f ++ g ∨ put f g = g ++ f)
    (hn : ∀ i ∈ Xml.ids (d.treeAt n), d₀.fresh ≤ i.number) :
    d₀.Gains (d.insertBeside put target n) := by
  have wf := h.grows.wellFormed
  cases hp : d.parent? target with
  | none =>
    rw [Document.insertBeside, hp]
    exact h
  | some parent =>
    have hp : (d.parent? target).isSome := by rw [hp]; rfl
    refine h.step (wf.grows_beside hr hput) (fun m _ i hi => ?_) fun m hm => ?_
    · rw [wf.treeAt_insertBeside hr hp hput] at hi
      split at hi
      · exact .inl hi
      · refine (mem_ids_replace_of (g := d.treeAt n) (fun node cs i hi => ?_) hi).imp_right (hn i)
        rcases hput (d.treeAt n) (tree node cs) with he | he <;>
          rw [he, ids_append, List.mem_append] at hi
        · exact hi.symm
        · exact hi
    · have ht := wf.treeAt_insertBeside hr hp hput m
      split at ht
      · rw [name?, name?, label?, label?, ht]
      · next hne =>
        rw [name?, name?, wf.label?_of_replace hm ht fun he => absurd (.inr he) hne]

end Gains

end WordTemplate.Xml.Document
