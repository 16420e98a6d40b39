import WordTemplate.Proofs.Word.Sound
import WordTemplate.Proofs.Xml.Position

/-!
# Changes within a scope

Processing works on one tree at a time, its scope, and leaves the trees that have no node in common
with the scope as they are: `Within`. It also makes new trees, which changes no tree that was there
before: `Extends`.

* `Within.trans`, `Extends.trans`: both relations can be chained.
* `insertAllAfter_spec`: trees from elsewhere are put behind a cursor in the scope.
* `exists_fragment`: copies of trees are put into a new element.
-/

namespace WordTemplate.Xml.Document

open Forest

variable {d₀ d d₁ d₂ : Document} {scope n m : NodeId}

/-! ## Trees apart from a scope -/

/-- Whether the tree at `n` has no node in common with the tree at `scope`. -/
structure Apart (d : Document) (scope n : NodeId) : Prop where
  mem_ids : n ∈ d.ids
  disjoint : ∀ i ∈ Xml.ids (d.treeAt n), i ∉ Xml.ids (d.treeAt scope)

/-- Whether changes at and below `scope` lead from `d` to `d'`. -/
structure Within (d d' : Document) (scope : NodeId) : Prop where
  grows : d.Grows d'
  mem_or_fresh : ∀ i ∈ Xml.ids (d'.treeAt scope), i ∈ Xml.ids (d.treeAt scope) ∨ d.fresh ≤ i.number
  treeAt_eq : ∀ n, d.Apart scope n → d'.treeAt n = d.treeAt n

/-- Whether only new trees lead from `d` to `d'`. -/
structure Extends (d d' : Document) : Prop where
  grows : d.Grows d'
  treeAt_eq : ∀ n ∈ d.ids, d'.treeAt n = d.treeAt n

theorem WellFormed.lt_fresh_of_treeAt (wf : d.WellFormed) (h : m ∈ Xml.ids (d.treeAt n)) :
    m.number < d.fresh :=
  wf.lt_fresh m (wf.mem_ids_of_mem_treeAt h)

theorem WellFormed.mem_treeAt_self (wf : d.WellFormed) (h : n ∈ d.ids) :
    n ∈ Xml.ids (d.treeAt n) := by
  obtain ⟨node, cs, rfl, hn⟩ := wf.exists_treeAt h
  simp [hn]

theorem Apart.not_mem (h : d.Apart scope n) (hm : m ∈ Xml.ids (d.treeAt scope)) :
    m ∉ Xml.ids (d.treeAt n) :=
  fun hn => h.disjoint m hn hm

/-- What is in a forest after a node was replaced was there before or came with the replacement. -/
theorem mem_ids_replace {f : Forest Node} {put : Node → Forest Node → Forest Node}
    (h : m ∈ Xml.ids (f.replace (·.id == n) put)) :
    m ∈ Xml.ids f ∨ ∃ node cs, f.treeAt (·.id == n) = tree node cs ∧ m ∈ Xml.ids (put node cs) := by
  by_cases hn : n ∈ Xml.ids f
  · obtain ⟨node, cs, -, htree⟩ := exists_treeAt hn
    have := (perm_ids_replace put htree).mem_iff (a := m)
    simp only [List.mem_append] at this
    exact (this.mp (.inl h)).imp_right fun h => ⟨node, cs, htree, h⟩
  · rw [replace_eq_self_of_not_mem hn] at h
    exact .inl h

/-- The same, if the replacement keeps the tree that was there and adds the tree `g`. -/
theorem mem_ids_replace_of {f g : Forest Node} {put : Node → Forest Node → Forest Node}
    (hput : ∀ node cs, ∀ i ∈ Xml.ids (put node cs), i ∈ Xml.ids (tree node cs) ∨ i ∈ Xml.ids g)
    (h : m ∈ Xml.ids (f.replace (·.id == n) put)) : m ∈ Xml.ids f ∨ m ∈ Xml.ids g := by
  rcases mem_ids_replace h with h | ⟨node, cs, ht, h⟩
  · exact .inl h
  · exact (hput node cs m h).imp_left fun h =>
      mem_ids_of_mem_treeAt (n := n) (by rw [ht]; exact h)

namespace Within

theorem refl (wf : d.WellFormed) : d.Within d scope :=
  ⟨.refl wf, fun _ hi => .inl hi, fun _ _ => rfl⟩

theorem apart (h : d.Within d₁ scope) (wf : d.WellFormed) (hn : d.Apart scope n) :
    d₁.Apart scope n where
  mem_ids := h.grows.mem_ids n hn.mem_ids
  disjoint := by
    intro i hi hs
    rw [h.treeAt_eq n hn] at hi
    rcases h.mem_or_fresh i hs with hs | hf
    · exact hn.disjoint i hi hs
    · have := wf.lt_fresh_of_treeAt hi
      omega

theorem trans (h₁ : d.Within d₁ scope) (h₂ : d₁.Within d₂ scope) (wf : d.WellFormed) :
    d.Within d₂ scope where
  grows := h₁.grows.trans h₂.grows
  mem_or_fresh := by
    intro i hi
    rcases h₂.mem_or_fresh i hi with h | h
    · exact h₁.mem_or_fresh i h
    · exact .inr (Nat.le_trans h₁.grows.fresh_le h)
  treeAt_eq := fun n hn => (h₂.treeAt_eq n (h₁.apart wf hn)).trans (h₁.treeAt_eq n hn)

theorem detach (h : d₀.Within d scope) (wf₀ : d₀.WellFormed)
    (hn : n ∈ Xml.ids (d.treeAt scope)) : d₀.Within (d.detach n) scope where
  grows := h.grows.trans (h.grows.wellFormed.grows_detach n)
  mem_or_fresh := by
    intro i hi
    refine h.mem_or_fresh i ?_
    rw [h.grows.wellFormed.treeAt_detach] at hi
    split at hi
    · next he => rw [he]; exact hi
    · exact (mem_ids_replace_of (g := nil) (by simp) hi).resolve_right (by simp)
  treeAt_eq := by
    intro m hm
    have hm' := h.apart wf₀ hm
    rw [h.grows.wellFormed.treeAt_detach, ← h.treeAt_eq m hm]
    split
    · next he => rw [he]
    · exact prune_eq_self_of_not_mem (hm'.not_mem hn)

theorem relabel (h : d₀.Within d scope) (wf₀ : d₀.WellFormed)
    (hn : n ∈ Xml.ids (d.treeAt scope)) (change : Label → Label) :
    d₀.Within (d.relabel n change) scope where
  grows := h.grows.trans (h.grows.wellFormed.grows_relabel n change)
  mem_or_fresh := by
    intro i hi
    refine h.mem_or_fresh i ?_
    rw [h.grows.wellFormed.treeAt_relabel] at hi
    exact (mem_ids_replace_of (g := nil) (by simp) hi).resolve_right (by simp)
  treeAt_eq := by
    intro m hm
    have hm' := h.apart wf₀ hm
    rw [h.grows.wellFormed.treeAt_relabel, ← h.treeAt_eq m hm]
    exact replace_eq_self_of_not_mem (hm'.not_mem hn)

theorem takeChildren (h : d₀.Within d scope) (wf₀ : d₀.WellFormed)
    (hn : n ∈ Xml.ids (d.treeAt scope)) : d₀.Within (d.takeChildren n).2 scope where
  grows := h.grows.trans (h.grows.wellFormed.grows_takeChildren n)
  mem_or_fresh := by
    intro i hi
    refine h.mem_or_fresh i ?_
    rw [h.grows.wellFormed.treeAt_takeChildren] at hi
    split at hi
    · exact hi
    · exact (mem_ids_replace_of (g := nil) (by simp) hi).resolve_right (by simp)
  treeAt_eq := by
    intro m hm
    have hm' := h.apart wf₀ hm
    rw [h.grows.wellFormed.treeAt_takeChildren, ← h.treeAt_eq m hm]
    split
    · rfl
    · exact replace_eq_self_of_not_mem (hm'.not_mem hn)

theorem addCopies (h : d₀.Within d scope) (hs : scope ∈ d₀.ids) (copies : Forest Label) :
    d₀.Within (d.addCopies copies) scope where
  grows := h.grows.trans (h.grows.wellFormed.grows_addCopies copies)
  mem_or_fresh := by
    intro i hi
    rw [h.grows.wellFormed.treeAt_addCopies_of_mem copies (h.grows.mem_ids _ hs)] at hi
    exact h.mem_or_fresh i hi
  treeAt_eq := by
    intro m hm
    rw [h.grows.wellFormed.treeAt_addCopies_of_mem copies (h.grows.mem_ids _ hm.mem_ids),
      h.treeAt_eq m hm]

/-- Putting a tree behind the children of a node of the scope, if the tree is new. -/
theorem append (h : d₀.Within d scope) (wf₀ : d₀.WellFormed) (hr : d.Receives n m)
    (hm : m ∈ Xml.ids (d.treeAt scope)) (hn : ∀ i ∈ Xml.ids (d.treeAt n), d₀.fresh ≤ i.number) :
    d₀.Within (d.append m n) scope := by
  have wf := h.grows.wellFormed
  refine ⟨h.grows.trans (wf.grows_append hr), fun i hi => ?_, fun k hk => ?_⟩
  · rw [wf.treeAt_append hr] at hi
    split at hi
    · exact h.mem_or_fresh i hi
    · rcases mem_ids_replace_of (g := d.treeAt n) (by simp; tauto) hi with hi | hi
      · exact h.mem_or_fresh i hi
      · exact .inr (hn i hi)
  · have hk' := h.apart wf₀ hk
    rw [wf.treeAt_append hr, ← h.treeAt_eq k hk]
    split
    · rfl
    · exact replace_eq_self_of_not_mem (hk'.not_mem hm)

/-- Putting a tree behind a node of the scope, if the tree is new. -/
theorem insertAfter (h : d₀.Within d scope) (wf₀ : d₀.WellFormed) (hr : d.Receives n m)
    (hm : m ∈ Xml.ids (d.treeAt scope)) (hne : m ≠ scope)
    (hn : ∀ i ∈ Xml.ids (d.treeAt n), d₀.fresh ≤ i.number) :
    d₀.Within (d.insertAfter m n) scope := by
  have wf := h.grows.wellFormed
  have hp := wf.parent?_isSome hm hne
  refine ⟨h.grows.trans (wf.grows_insertAfter hr hp), fun i hi => ?_, fun k hk => ?_⟩
  · rw [wf.treeAt_insertAfter hr hp] at hi
    split at hi
    · exact h.mem_or_fresh i hi
    · rcases mem_ids_replace_of (g := d.treeAt n) (by simp; tauto) hi with hi | hi
      · exact h.mem_or_fresh i hi
      · exact .inr (hn i hi)
  · have hk' := h.apart wf₀ hk
    rw [wf.treeAt_insertAfter hr hp, ← h.treeAt_eq k hk]
    split
    · rfl
    · exact replace_eq_self_of_not_mem (hk'.not_mem hm)

theorem insertBefore (h : d₀.Within d scope) (wf₀ : d₀.WellFormed) (hr : d.Receives n m)
    (hm : m ∈ Xml.ids (d.treeAt scope)) (hne : m ≠ scope)
    (hn : ∀ i ∈ Xml.ids (d.treeAt n), d₀.fresh ≤ i.number) :
    d₀.Within (d.insertBefore m n) scope := by
  have wf := h.grows.wellFormed
  have hp := wf.parent?_isSome hm hne
  refine ⟨h.grows.trans (wf.grows_insertBefore hr hp), fun i hi => ?_, fun k hk => ?_⟩
  · rw [wf.treeAt_insertBefore hr hp] at hi
    split at hi
    · exact h.mem_or_fresh i hi
    · rcases mem_ids_replace_of (g := d.treeAt n) (by simp; tauto) hi with hi | hi
      · exact h.mem_or_fresh i hi
      · exact .inr (hn i hi)
  · have hk' := h.apart wf₀ hk
    rw [wf.treeAt_insertBefore hr hp, ← h.treeAt_eq k hk]
    split
    · rfl
    · exact replace_eq_self_of_not_mem (hk'.not_mem hm)

end Within

namespace Extends

theorem refl (wf : d.WellFormed) : d.Extends d :=
  ⟨.refl wf, fun _ _ => rfl⟩

theorem trans (h₁ : d.Extends d₁) (h₂ : d₁.Extends d₂) : d.Extends d₂ where
  grows := h₁.grows.trans h₂.grows
  treeAt_eq := fun n hn =>
    (h₂.treeAt_eq n (h₁.grows.mem_ids n hn)).trans (h₁.treeAt_eq n hn)

theorem addCopies (h : d.Extends d₁) (copies : Forest Label) : d.Extends (d₁.addCopies copies) :=
  h.trans ⟨h.grows.wellFormed.grows_addCopies copies, fun _ hn =>
    h.grows.wellFormed.treeAt_addCopies_of_mem copies hn⟩

/-- A tree that was there is apart from a new one. -/
theorem apart (h : d.Extends d₁) (wf : d.WellFormed)
    (hs : ∀ i ∈ Xml.ids (d₁.treeAt scope), d.fresh ≤ i.number) (hn : n ∈ d.ids) :
    d₁.Apart scope n where
  mem_ids := h.grows.mem_ids n hn
  disjoint := by
    intro i hi hi'
    rw [h.treeAt_eq n hn] at hi
    have := hs i hi'
    have := wf.lt_fresh_of_treeAt hi
    omega

/-- Changes within a new tree change no tree that was there. -/
theorem within (h : d.Extends d₁) (wf : d.WellFormed)
    (hs : ∀ i ∈ Xml.ids (d₁.treeAt scope), d.fresh ≤ i.number) (hw : d₁.Within d₂ scope) :
    d.Extends d₂ where
  grows := h.grows.trans hw.grows
  treeAt_eq := fun n hn => (hw.treeAt_eq n (h.apart wf hs hn)).trans (h.treeAt_eq n hn)

/-- New trees change nothing outside of any scope. -/
theorem toWithin (h : d.Extends d₁) (hs : scope ∈ d.ids) : d.Within d₁ scope where
  grows := h.grows
  mem_or_fresh := fun i hi => .inl (by rwa [h.treeAt_eq scope hs] at hi)
  treeAt_eq := fun n hn => h.treeAt_eq n hn.mem_ids

end Extends

/-- A node below the top of a tree is not the one at the top. -/
theorem WellFormed.ne_of_spot (wf : d.WellFormed) {fr : Frame Node} {up : List (Frame Node)}
    {l cs r : Forest Node} {node : Node} (h : d.treeAt scope = wrap (fr :: up) (l ++ cons node cs r)) :
    node.id ≠ scope := by
  rintro rfl
  have htree := treeAt_spot (wf.nodup_treeAt node.id) h
  have hmem : node.id ∈ Xml.ids (d.treeAt node.id) := by
    rw [h, ids_wrap]
    simp
  rw [wf.treeAt_treeAt hmem, h] at htree
  have := congrArg Forest.size htree
  rw [← length_toList, ← length_toList, toList_wrap] at this
  simp [opening, tree, toList] at this
  omega

/-! ## Loose trees -/

/-- The trees at the given nodes, one behind the other. -/
def treesAt (d : Document) (ns : List NodeId) : Forest Node :=
  ns.foldr (fun n f => d.treeAt n ++ f) nil

theorem treesAt_congr {ns : List NodeId} (h : ∀ n ∈ ns, d₁.treeAt n = d.treeAt n) :
    d₁.treesAt ns = d.treesAt ns := by
  induction ns with
  | nil => rfl
  | cons n ns ih =>
    simp only [treesAt, List.foldr_cons] at ih ⊢
    rw [h n (by simp), ih fun n hn => h n (by simp [hn])]

theorem mem_toList_treesAt {ns : List NodeId} {node : Node} :
    node ∈ (d.treesAt ns).toList ↔ ∃ n ∈ ns, node ∈ (d.treeAt n).toList := by
  induction ns with
  | nil => simp [treesAt, toList]
  | cons n ns ih =>
    simp only [treesAt, List.foldr_cons, toList_append, List.mem_append] at ih ⊢
    simp [ih]

theorem parent?_eq_none_iff (wf : d.WellFormed) :
    d.parent? n = none ↔ ∀ m, m ≠ n → n ∉ Xml.ids (d.treeAt m) := by
  constructor
  · intro h m hm hn
    have := wf.parent?_isSome hn (Ne.symm hm)
    simp [h] at this
  · intro h
    by_contra hne
    have hsome : (d.parent? n).isSome := Option.isSome_iff_ne_none.mpr hne
    obtain ⟨up, l, node, cs, r, hf, rfl⟩ := exists_spot (wf.mem_ids_of_parent? hsome)
    rw [parent?_eq wf hf] at hne
    cases up with
    | nil => simp at hne
    | cons fr up =>
      have hq := treeAt_eq wf (trees_eq_of_cons hf)
      have hnd := wf.nodup_treeAt fr.value.id
      rw [hq, ids_tree, ids_append, ids_cons] at hnd
      refine h fr.value.id ?_ (by simp [hq])
      intro he
      simp [he] at hnd

/-- What keeps a node without a parent. -/
theorem parent?_eq_none_of_subset {d' : Document} (wf : d.WellFormed) (wf' : d'.WellFormed)
    (hn : d.parent? n = none)
    (h : ∀ m, m ≠ n → n ∈ Xml.ids (d'.treeAt m) → n ∈ Xml.ids (d.treeAt m)) :
    d'.parent? n = none :=
  (parent?_eq_none_iff wf').mpr fun m hm hmem => (parent?_eq_none_iff wf).mp hn m hm (h m hm hmem)

theorem WellFormed.parent?_relabel (wf : d.WellFormed) (hn : d.parent? n = none)
    (change : Label → Label) : (d.relabel m change).parent? n = none := by
  refine parent?_eq_none_of_subset wf (wf.grows_relabel m change).wellFormed hn fun k _ hk => ?_
  rw [wf.treeAt_relabel] at hk
  exact (mem_ids_replace_of (g := nil) (by simp) hk).resolve_right (by simp)

theorem WellFormed.parent?_takeChildren (wf : d.WellFormed) (hn : d.parent? n = none) :
    (d.takeChildren m).2.parent? n = none := by
  refine parent?_eq_none_of_subset wf (wf.grows_takeChildren m).wellFormed hn fun k _ hk => ?_
  rw [wf.treeAt_takeChildren] at hk
  split at hk
  · exact hk
  · exact (mem_ids_replace_of (g := nil) (by simp) hk).resolve_right (by simp)

theorem WellFormed.parent?_addCopies (wf : d.WellFormed) (hn : d.parent? n = none)
    (hmem : n ∈ d.ids) (copies : Forest Label) : (d.addCopies copies).parent? n = none := by
  refine parent?_eq_none_of_subset wf (wf.grows_addCopies copies).wellFormed hn fun k _ hk => ?_
  rw [wf.treeAt_addCopies] at hk
  split at hk
  · have := Xml.mem_ids_of_mem_treeAt hk
    rw [ids_identify] at this
    obtain ⟨i, hi, rfl⟩ := List.mem_map.mp this
    have : i < d.fresh := wf.lt_fresh _ hmem
    rw [List.mem_range'_1] at hi
    omega
  · exact hk

theorem WellFormed.parent?_append {t : NodeId} (wf : d.WellFormed) (hn : d.parent? n = none)
    (hr : d.Receives t m) (hne : n ≠ t) : (d.append m t).parent? n = none := by
  refine parent?_eq_none_of_subset wf (wf.grows_append hr).wellFormed hn fun k _ hk => ?_
  rw [wf.treeAt_append hr] at hk
  split at hk
  · exact hk
  · refine (mem_ids_replace_of (g := d.treeAt t) (by simp; tauto) hk).resolve_right ?_
    exact (parent?_eq_none_iff wf).mp hn t (Ne.symm hne)

theorem WellFormed.parent?_insertAfter {t : NodeId} (wf : d.WellFormed) (hn : d.parent? n = none)
    (hr : d.Receives t m) (hp : (d.parent? m).isSome) (hne : n ≠ t) :
    (d.insertAfter m t).parent? n = none := by
  refine parent?_eq_none_of_subset wf (wf.grows_insertAfter hr hp).wellFormed hn fun k _ hk => ?_
  rw [wf.treeAt_insertAfter hr hp] at hk
  split at hk
  · exact hk
  · refine (mem_ids_replace_of (g := d.treeAt t) (by simp; tauto) hk).resolve_right ?_
    exact (parent?_eq_none_iff wf).mp hn t (Ne.symm hne)

/-- Whether the trees of a forest are at the top of the document. -/
structure Parted (d : Document) (f : Forest Node) : Prop where
  nodup : (Xml.ids f).Nodup
  treeAt_eq : ∀ l node cs r, f = l ++ cons node cs r → d.treeAt node.id = tree node cs
  parent?_eq : ∀ l node cs r, f = l ++ cons node cs r → d.parent? node.id = none

theorem Parted.tail {node : Node} {cs rest : Forest Node} (h : d.Parted (cons node cs rest)) :
    d.Parted rest where
  nodup := by
    have := h.nodup
    rw [ids_cons, List.nodup_cons] at this
    exact (List.nodup_append.mp this.2).2.1
  treeAt_eq := fun l node' cs' r he => h.treeAt_eq (cons node cs l) node' cs' r (by rw [he]; rfl)
  parent?_eq := fun l node' cs' r he => h.parent?_eq (cons node cs l) node' cs' r (by rw [he]; rfl)

theorem Parted.not_mem_tail {node : Node} {cs rest : Forest Node} (h : d.Parted (cons node cs rest)) :
    ∀ i ∈ Xml.ids rest, i ∉ Xml.ids (d.treeAt node.id) := by
  intro i hi hmem
  have hnd := h.nodup
  rw [h.treeAt_eq nil node cs rest rfl] at hmem
  rw [ids_cons, ← List.cons_append, List.nodup_append] at hnd
  exact hnd.2.2 i (by simpa using hmem) i hi rfl

theorem Parted.receives {node : Node} {cs rest : Forest Node} (h : d.Parted (cons node cs rest))
    (wf : d.WellFormed) (hn : n ∈ d.ids) (hnot : n ∉ Xml.ids (cons node cs rest)) :
    d.Receives node.id n := by
  have htree := h.treeAt_eq nil node cs rest rfl
  refine ⟨(wf.mem_ids_of_treeAt htree).1, h.parent?_eq nil node cs rest rfl, hn, fun hmem => ?_⟩
  rw [htree] at hmem
  exact hnot (by rw [ids_cons]; simp at hmem ⊢; tauto)

/-- The other trees, when one of them is put somewhere. -/
theorem Parted.insertAfter {node : Node} {cs rest : Forest Node} (h : d.Parted (cons node cs rest))
    (wf : d.WellFormed) (hn : n ∈ d.ids) (hnot : n ∉ Xml.ids (cons node cs rest)) :
    (d.insertAfter n node.id).Parted rest := by
  cases hp : d.parent? n with
  | none =>
    rw [Document.insertAfter, insertBeside, hp]
    exact h.tail
  | some parent =>
    have hp : (d.parent? n).isSome := by rw [hp]; rfl
    have hr := h.receives wf hn hnot
    have hout := h.not_mem_tail
    have hrest : n ∉ Xml.ids rest := fun hmem => hnot (by simp [hmem])
    refine ⟨h.tail.nodup, fun l node' cs' r he => ?_, fun l node' cs' r he => ?_⟩
    · have hin : node'.id ∈ Xml.ids rest := by simp [he]
      have htree := h.tail.treeAt_eq l node' cs' r he
      rw [wf.treeAt_insertAfter hr hp, if_neg, htree]
      · exact replace_eq_self_of_not_mem fun hmem => hrest (by rw [he]; simp at hmem ⊢; tauto)
      · rw [not_or]
        exact ⟨hout _ hin, fun he => hrest (he ▸ hin)⟩
    · have hin : node'.id ∈ Xml.ids rest := by simp [he]
      refine wf.parent?_insertAfter (h.tail.parent?_eq l node' cs' r he) hr hp ?_
      rintro heq
      exact hout _ hin (by
        rw [heq, h.treeAt_eq nil node cs rest rfl]
        simp)

/-- Whether the trees of a forest are at the top of the document, with no node in the scope. -/
structure Loose (d : Document) (scope : NodeId) (f : Forest Node) : Prop where
  parted : d.Parted f
  not_mem : ∀ i ∈ Xml.ids f, i ∉ Xml.ids (d.treeAt scope)

theorem Loose.tail {node : Node} {cs rest : Forest Node}
    (h : d.Loose scope (cons node cs rest)) : d.Loose scope rest :=
  ⟨h.parted.tail, fun i hi => h.not_mem i (by simp [hi])⟩

/-! ## Changes at a spot of the scope -/

section Spot

variable {up : List (Frame Node)} {fr : Frame Node} {l cs r : Forest Node} {node : Node}

theorem mem_of_spot (h : d.treeAt scope = wrap up (l ++ cons node cs r)) :
    node.id ∈ Xml.ids (d.treeAt scope) := by
  rw [h, ids_wrap]
  simp

theorem WellFormed.treeAt_of_spot (wf : d.WellFormed)
    (h : d.treeAt scope = wrap up (l ++ cons node cs r)) : d.treeAt node.id = tree node cs := by
  rw [← wf.treeAt_treeAt (mem_of_spot h)]
  exact treeAt_spot (wf.nodup_treeAt scope) h

theorem treeAt_relabel_spot (wf : d.WellFormed)
    (h : d.treeAt scope = wrap up (l ++ cons node cs r)) (change : Label → Label) :
    (d.relabel node.id change).treeAt scope =
      wrap up (l ++ cons { node with label := change node.label } cs r) := by
  rw [wf.treeAt_relabel]
  exact replace_spot (wf.nodup_treeAt scope) h _

theorem treeAt_detach_spot (wf : d.WellFormed)
    (h : d.treeAt scope = wrap (fr :: up) (l ++ cons node cs r)) :
    (d.detach node.id).treeAt scope = wrap (fr :: up) (l ++ r) := by
  rw [wf.treeAt_detach, if_neg (Ne.symm (wf.ne_of_spot h))]
  exact prune_spot (wf.nodup_treeAt scope) h

theorem treeAt_takeChildren_spot (wf : d.WellFormed)
    (h : d.treeAt scope = wrap up (l ++ cons node cs r)) :
    (d.takeChildren node.id).2.treeAt scope = wrap up (l ++ cons node nil r) := by
  have hnode := wf.treeAt_of_spot h
  rw [wf.treeAt_takeChildren, if_neg, replace_spot (wf.nodup_treeAt scope) h]
  · rfl
  · rw [hnode]
    intro hmem
    have hne : scope ≠ node.id := by
      rintro rfl
      have := wf.nodup_treeAt node.id
      rw [hnode, ids_tree, List.nodup_cons] at this
      exact this.1 hmem
    have hmem' : scope ∈ Xml.ids (d.treeAt node.id) := by
      rw [hnode]
      simpa [tree] using .inr hmem
    exact wf.not_mem_treeAt hmem' hne (mem_of_spot h)

theorem treeAt_append_spot (wf : d.WellFormed)
    (h : d.treeAt scope = wrap up (l ++ cons node cs r)) (hr : d.Receives n node.id)
    (hs : scope ∉ Xml.ids (d.treeAt n)) :
    (d.append node.id n).treeAt scope = wrap up (l ++ cons node (cs ++ d.treeAt n) r) := by
  rw [wf.treeAt_append hr, if_neg hs]
  exact replace_spot (wf.nodup_treeAt scope) h _

theorem treeAt_insertAfter_spot (wf : d.WellFormed)
    (h : d.treeAt scope = wrap (fr :: up) (l ++ cons node cs r)) (hr : d.Receives n node.id)
    (hs : scope ∉ Xml.ids (d.treeAt n)) :
    (d.insertAfter node.id n).treeAt scope =
      wrap (fr :: up) (l ++ cons node cs (d.treeAt n ++ r)) := by
  have hne := Ne.symm (wf.ne_of_spot h)
  rw [wf.treeAt_insertAfter hr (wf.parent?_isSome (mem_of_spot h) (Ne.symm hne)),
    if_neg (by simp [hs, hne]), replace_spot (wf.nodup_treeAt scope) h]
  simp only [tree, cons_append, nil_append]

theorem treeAt_insertBefore_spot (wf : d.WellFormed)
    (h : d.treeAt scope = wrap (fr :: up) (l ++ cons node cs r)) (hr : d.Receives n node.id)
    (hs : scope ∉ Xml.ids (d.treeAt n)) :
    (d.insertBefore node.id n).treeAt scope =
      wrap (fr :: up) (l ++ (d.treeAt n ++ cons node cs r)) := by
  have hne := Ne.symm (wf.ne_of_spot h)
  rw [wf.treeAt_insertBefore hr (wf.parent?_isSome (mem_of_spot h) (Ne.symm hne)),
    if_neg (by simp [hs, hne]), replace_spot (wf.nodup_treeAt scope) h, append_assoc]
  simp only [tree, cons_append, nil_append]

end Spot

/-! ## New trees -/

/-- Whether `d'` has the tree `f` at `n` over and above what is in `d`. -/
structure Makes (d d' : Document) (n : NodeId) (f : Forest Node) : Prop where
  extends_eq : d.Extends d'
  mem_ids : n ∈ d'.ids
  parent?_eq : d'.parent? n = none
  treeAt_eq : d'.treeAt n = f
  fresh_le : ∀ i ∈ Xml.ids f, d.fresh ≤ i.number

theorem makes_addCopies (wf : d.WellFormed) (label : Label) (copies : Forest Label) :
    d.Makes (d.addCopies (tree label copies)) d.freshId
      (tree ⟨d.freshId, label⟩ (identify (d.fresh + 1) copies)) := by
  have htree := wf.treeAt_freshId label copies
  have hext := (Extends.refl wf).addCopies (tree label copies)
  refine ⟨hext, (hext.grows.wellFormed.mem_ids_of_treeAt htree).1,
    (wf.receives_copy label copies wf.root_mem).parent?_eq, htree, fun i hi => ?_⟩
  rw [ids_tree, List.mem_cons, ids_identify] at hi
  rcases hi with rfl | hi
  · exact Nat.le_refl _
  · simp only [List.mem_map, List.mem_range'_1] at hi
    obtain ⟨k, hk, rfl⟩ := hi
    exact Nat.le_of_succ_le hk.1

namespace Makes

variable {up : List (Frame Node)} {fr : Frame Node} {l cs r f : Forest Node} {node : Node}

theorem not_mem (h : d.Makes d₁ n f) (wf : d.WellFormed) (hm : m ∈ d.ids) : m ∉ Xml.ids f := by
  intro hmem
  have := h.fresh_le m hmem
  have := wf.lt_fresh m hm
  omega

theorem receives (h : d.Makes d₁ n f) (wf : d.WellFormed) (hm : m ∈ d.ids) :
    d₁.Receives n m where
  mem_ids := h.mem_ids
  parent?_eq := h.parent?_eq
  target_mem_ids := h.extends_eq.grows.mem_ids m hm
  target_not_mem := by
    rw [h.treeAt_eq]
    exact h.not_mem wf hm

theorem within (h : d.Makes d₁ n f) (hw : d₀.Within d scope) (wf₀ : d₀.WellFormed)
    (hs : scope ∈ d₀.ids) : d₀.Within d₁ scope :=
  hw.trans (h.extends_eq.toWithin (hw.grows.mem_ids _ hs)) wf₀

theorem fresh_le_of_within (h : d.Makes d₁ n f) (hw : d₀.Within d scope) :
    ∀ i ∈ Xml.ids (d₁.treeAt n), d₀.fresh ≤ i.number := by
  rw [h.treeAt_eq]
  exact fun i hi => Nat.le_trans hw.grows.fresh_le (h.fresh_le i hi)

/-- Putting the new tree behind the children of a node of the scope. -/
theorem append_spec (h : d.Makes d₁ n f) (hw : d₀.Within d scope) (wf₀ : d₀.WellFormed)
    (hs : scope ∈ d₀.ids) (ht : d.treeAt scope = wrap up (l ++ cons node cs r)) :
    d₀.Within (d₁.append node.id n) scope ∧
      (d₁.append node.id n).treeAt scope = wrap up (l ++ cons node (cs ++ f) r) := by
  have wf := hw.grows.wellFormed
  have hmem := wf.mem_ids_of_mem_treeAt (mem_of_spot ht)
  have hr := h.receives wf hmem
  have ht₁ : d₁.treeAt scope = wrap up (l ++ cons node cs r) := by
    rw [← ht, h.extends_eq.treeAt_eq _ (hw.grows.mem_ids _ hs)]
  refine ⟨(h.within hw wf₀ hs).append wf₀ hr (mem_of_spot ht₁) (h.fresh_le_of_within hw), ?_⟩
  rw [treeAt_append_spot h.extends_eq.grows.wellFormed ht₁ hr, h.treeAt_eq]
  rw [h.treeAt_eq]
  exact h.not_mem wf (hw.grows.mem_ids _ hs)

/-- Putting the new tree behind a node of the scope. -/
theorem insertAfter_spec (h : d.Makes d₁ n f) (hw : d₀.Within d scope) (wf₀ : d₀.WellFormed)
    (hs : scope ∈ d₀.ids) (ht : d.treeAt scope = wrap (fr :: up) (l ++ cons node cs r)) :
    d₀.Within (d₁.insertAfter node.id n) scope ∧
      (d₁.insertAfter node.id n).treeAt scope = wrap (fr :: up) (l ++ cons node cs (f ++ r)) := by
  have wf := hw.grows.wellFormed
  have hmem := wf.mem_ids_of_mem_treeAt (mem_of_spot ht)
  have hr := h.receives wf hmem
  have ht₁ : d₁.treeAt scope = wrap (fr :: up) (l ++ cons node cs r) := by
    rw [← ht, h.extends_eq.treeAt_eq _ (hw.grows.mem_ids _ hs)]
  refine ⟨(h.within hw wf₀ hs).insertAfter wf₀ hr (mem_of_spot ht₁)
    (h.extends_eq.grows.wellFormed.ne_of_spot ht₁) (h.fresh_le_of_within hw), ?_⟩
  rw [treeAt_insertAfter_spot h.extends_eq.grows.wellFormed ht₁ hr, h.treeAt_eq]
  rw [h.treeAt_eq]
  exact h.not_mem wf (hw.grows.mem_ids _ hs)

theorem insertBefore_spec (h : d.Makes d₁ n f) (hw : d₀.Within d scope) (wf₀ : d₀.WellFormed)
    (hs : scope ∈ d₀.ids) (ht : d.treeAt scope = wrap (fr :: up) (l ++ cons node cs r)) :
    d₀.Within (d₁.insertBefore node.id n) scope ∧
      (d₁.insertBefore node.id n).treeAt scope = wrap (fr :: up) (l ++ (f ++ cons node cs r)) := by
  have wf := hw.grows.wellFormed
  have hmem := wf.mem_ids_of_mem_treeAt (mem_of_spot ht)
  have hr := h.receives wf hmem
  have ht₁ : d₁.treeAt scope = wrap (fr :: up) (l ++ cons node cs r) := by
    rw [← ht, h.extends_eq.treeAt_eq _ (hw.grows.mem_ids _ hs)]
  refine ⟨(h.within hw wf₀ hs).insertBefore wf₀ hr (mem_of_spot ht₁)
    (h.extends_eq.grows.wellFormed.ne_of_spot ht₁) (h.fresh_le_of_within hw), ?_⟩
  rw [treeAt_insertBefore_spot h.extends_eq.grows.wellFormed ht₁ hr, h.treeAt_eq]
  rw [h.treeAt_eq]
  exact h.not_mem wf (hw.grows.mem_ids _ hs)

end Makes

/-! ## Putting trees behind a cursor -/

/-- Whether the trees `left` end with the tree at `n`, and `right` follow it below `up`. -/
structure Cursor (d : Document) (scope n : NodeId) (up : List (Frame Node))
    (left right : Forest Node) : Prop where
  treeAt_eq : d.treeAt scope = wrap up (left ++ right)
  up_ne_nil : up ≠ []
  left_eq : ∃ l node cs, left = l ++ tree node cs ∧ node.id = n

section Cursor

variable {up : List (Frame Node)} {left right : Forest Node}

theorem Cursor.exists_eq (h : d.Cursor scope n up left right) :
    ∃ l node cs, left = l ++ tree node cs ∧ node.id = n ∧
      d.treeAt scope = wrap up (l ++ cons node cs right) := by
  obtain ⟨l, node, cs, rfl, hn⟩ := h.left_eq
  exact ⟨l, node, cs, rfl, hn, by rw [h.treeAt_eq, append_assoc]; rfl⟩

theorem Cursor.mem (h : d.Cursor scope n up left right) : n ∈ Xml.ids (d.treeAt scope) := by
  obtain ⟨l, node, cs, -, rfl, ht⟩ := h.exists_eq
  rw [ht, ids_wrap]
  simp

theorem Cursor.ne (h : d.Cursor scope n up left right) (wf : d.WellFormed) : n ≠ scope := by
  obtain ⟨l, node, cs, -, rfl, ht⟩ := h.exists_eq
  obtain ⟨fr, up', rfl⟩ := List.exists_cons_of_ne_nil h.up_ne_nil
  exact wf.ne_of_spot ht

/-- Trees that are put in one behind the other. -/
theorem insertAllAfter_spec {f : Forest Node} (h₀ : d₀.Within d scope) (wf₀ : d₀.WellFormed)
    (hc : d.Cursor scope n up left right) (hf : d.Loose scope f)
    (hfresh : ∀ i ∈ Xml.ids f, d₀.fresh ≤ i.number) :
    ∃ last d', d.insertAllAfter n (f.roots.map Node.id) = (last, d') ∧ d₀.Within d' scope ∧
      d'.fresh = d.fresh ∧ d'.Cursor scope last up (left ++ f) right := by
  induction f generalizing d n left with
  | nil => exact ⟨n, d, rfl, h₀, rfl, by rwa [append_nil]⟩
  | cons node cs rest _ ih =>
    have wf := h₀.grows.wellFormed
    have hn := hf.parted.treeAt_eq nil node cs rest rfl
    have hnids := wf.mem_ids_of_mem_treeAt hc.mem
    have hout : n ∉ Xml.ids (cons node cs rest) := fun hmem => hf.not_mem n hmem hc.mem
    have hr := hf.parted.receives wf hnids hout
    have hp := wf.parent?_isSome hc.mem (hc.ne wf)
    have hscope : scope ∉ Xml.ids (d.treeAt node.id) := by
      intro hmem
      obtain ⟨snode, scs, hs, htree⟩ := wf.exists_treeAt (wf.mem_ids_of_mem_treeAt hmem)
      rw [hn] at hmem
      refine hf.not_mem scope (by rw [ids_cons]; simp at hmem ⊢; tauto) ?_
      simp [htree, hs]
    obtain ⟨l, c, ccs, hleft, hcid, htree⟩ := hc.exists_eq
    have hnew : (d.insertAfter n node.id).treeAt scope =
        wrap up (left ++ tree node cs ++ right) := by
      rw [wf.treeAt_insertAfter hr hp, if_neg (by simp [hscope, Ne.symm (hc.ne wf)]), ← hcid,
        replace_spot (wf.nodup_treeAt scope) htree, hn, hleft]
      simp only [append_assoc]
    have hloose : (d.insertAfter n node.id).Loose scope rest := by
      refine ⟨hf.parted.insertAfter wf hnids hout, fun i hi hmem => ?_⟩
      rw [hnew, ids_wrap] at hmem
      have hold : i ∉ Xml.ids (d.treeAt scope) := hf.tail.not_mem i hi
      have hnode := hf.parted.not_mem_tail i hi
      rw [hn] at hnode
      rw [hc.treeAt_eq, ids_wrap] at hold
      simp only [List.mem_append, ids_append] at hmem hold
      tauto
    obtain ⟨last, d', hrun, hw, hfr, hcur⟩ := ih
      (h₀.insertAfter wf₀ hr hc.mem (hc.ne wf) (by
        rw [hn]
        exact fun i hi => hfresh i (by rw [ids_cons]; simp at hi ⊢; tauto)))
      ⟨hnew, hc.up_ne_nil, left, node, cs, rfl, rfl⟩ hloose
      (fun i hi => hfresh i (by simp [hi]))
    refine ⟨last, d', hrun, hw, ?_, ?_⟩
    · rw [hfr, Document.insertAfter, wf.insertBeside_eq hr hp, remake_fresh]
    · rw [append_assoc] at hcur
      exact hcur

end Cursor

/-! ## Fragments -/

/-- The trees at the given nodes without identifiers. -/
def contentLabels (d : Document) (ns : List NodeId) : Forest Label :=
  labels (d.treesAt ns)

theorem appendCopies_spec (node : Node) {f : Forest Node} {ns : List NodeId}
    (wf₀ : d₀.WellFormed) (h : d₀.Extends d) (ht : d.treeAt node.id = tree node f)
    (hnew : ∀ i ∈ Xml.ids (d.treeAt node.id), d₀.fresh ≤ i.number) (hns : ∀ n ∈ ns, n ∈ d₀.ids) :
    d₀.Extends (d.appendCopies node.id ns) ∧ ∃ g, labels g = d₀.contentLabels ns ∧
      (d.appendCopies node.id ns).treeAt node.id = tree node (f ++ g) ∧
      ∀ i ∈ Xml.ids (tree node (f ++ g)), d₀.fresh ≤ i.number := by
  induction ns generalizing d f with
  | nil =>
    refine ⟨h, nil, rfl, by simpa [appendCopies] using ht, fun i hi => hnew i ?_⟩
    rw [ht]
    simpa using hi
  | cons n ns ih =>
    have wf := h.grows.wellFormed
    have hn : n ∈ d.ids := h.grows.mem_ids n (hns n (by simp))
    obtain ⟨a, as, -, htree⟩ := wf.exists_treeAt hn
    have hlabels : d.labelsAt n = tree a.label (labels as) := by
      rw [labelsAt, htree, labels_tree]
    have hr : (d.addCopies (tree a.label (labels as))).Receives d.freshId node.id :=
      wf.receives_copy _ _ (wf.mem_ids_of_treeAt ht).1
    have hgrows := wf.grows_addCopies (tree a.label (labels as))
    have hfreshId := wf.treeAt_freshId a.label (labels as)
    have hidsNew : ∀ i ∈ Xml.ids ((d.addCopies (tree a.label (labels as))).treeAt d.freshId),
        d.fresh ≤ i.number := by
      intro i hi
      rw [hfreshId, ids_tree, List.mem_cons, ids_identify] at hi
      rcases hi with rfl | hi
      · exact Nat.le_refl _
      · simp only [List.mem_map, List.mem_range'_1] at hi
        obtain ⟨k, hk, rfl⟩ := hi
        exact Nat.le_of_succ_le hk.1
    have hold : ∀ m ∈ d.ids, m ∉ Xml.ids ((d.addCopies (tree a.label (labels as))).treeAt
        d.freshId) := by
      intro m hm hmem
      have := hidsNew m hmem
      have := wf.lt_fresh m hm
      omega
    -- The copy is put behind the children of the new element.
    have hnode : ((d.addCopies (tree a.label (labels as))).append node.id d.freshId).treeAt node.id =
        tree node (f ++ tree ⟨d.freshId, a.label⟩ (identify (d.fresh + 1) (labels as))) := by
      rw [hgrows.wellFormed.treeAt_append hr, if_neg (hold _ (wf.mem_ids_of_treeAt ht).1),
        wf.treeAt_addCopies_of_mem _ (wf.mem_ids_of_treeAt ht).1, ht, hfreshId]
      simp [replace, replace?, tree]
    have hext : d₀.Extends ((d.addCopies (tree a.label (labels as))).append node.id d.freshId) := by
      refine ⟨h.grows.trans (hgrows.trans (hgrows.wellFormed.grows_append hr)), fun m hm => ?_⟩
      have hm' := h.grows.mem_ids m hm
      rw [hgrows.wellFormed.treeAt_append hr, if_neg (hold m hm'),
        wf.treeAt_addCopies_of_mem _ hm', h.treeAt_eq m hm]
      refine replace_eq_self_of_not_mem fun hmem => ?_
      have := hnew node.id (wf.mem_treeAt_self (wf.mem_ids_of_treeAt ht).1)
      have := wf₀.lt_fresh_of_treeAt hmem
      omega
    have hnew' : ∀ i ∈ Xml.ids (((d.addCopies (tree a.label (labels as))).append node.id
        d.freshId).treeAt node.id), d₀.fresh ≤ i.number := by
      intro i hi
      rw [hnode, ids_tree, ids_append, ← List.cons_append, List.mem_append] at hi
      rcases hi with hi | hi
      · exact hnew i (by rwa [ht, ids_tree])
      · rw [← hfreshId] at hi
        exact Nat.le_trans h.grows.fresh_le (hidsNew i hi)
    have hcopy : d.appendCopies node.id (n :: ns) =
        ((d.addCopies (tree a.label (labels as))).append node.id d.freshId).appendCopies
          node.id ns := by
      rw [appendCopies, List.foldl_cons, copy, hlabels]
      rfl
    obtain ⟨hext', g, hg, htree', hids⟩ := ih hext hnode hnew' fun m hm => hns m (by simp [hm])
    rw [hcopy]
    refine ⟨hext', tree ⟨d.freshId, a.label⟩ (identify (d.fresh + 1) (labels as)) ++ g, ?_, ?_, ?_⟩
    · have hn₀ := h.treeAt_eq n (hns n (by simp))
      rw [labels_append, hg, labels_tree, labels_identify, contentLabels, contentLabels]
      simp only [treesAt, List.foldr_cons]
      rw [labels_append, ← hn₀, htree, labels_tree]
    · rw [htree', append_assoc]
    · rwa [← append_assoc]

/-- A new element with copies of trees. -/
theorem exists_fragment (name : String) {ns : List NodeId} (wf : d.WellFormed)
    (hns : ∀ n ∈ ns, n ∈ d.ids) :
    ∃ node g, (d.createElement name).1 = node.id ∧ node.label = .element ⟨name, []⟩ ∧
      labels g = d.contentLabels ns ∧
      d.Extends ((d.createElement name).2.appendCopies node.id ns) ∧
      ((d.createElement name).2.appendCopies node.id ns).treeAt node.id = tree node g ∧
      ∀ i ∈ Xml.ids (tree node g), d.fresh ≤ i.number := by
  have htree := wf.treeAt_freshId (.element ⟨name, []⟩) nil
  have hids : ∀ i ∈ Xml.ids ((d.createElement name).2.treeAt d.freshId), d.fresh ≤ i.number := by
    intro i hi
    have hi' : i ∈ Xml.ids ((d.addCopies (tree (.element ⟨name, []⟩) nil)).treeAt d.freshId) := hi
    rw [htree] at hi'
    obtain rfl : i = d.freshId := by simpa [identify, number, Forest.map] using hi'
    exact Nat.le_refl _
  obtain ⟨hext, g, hg, ht, hnew⟩ := appendCopies_spec
    ⟨d.freshId, .element ⟨name, []⟩⟩ wf ((Extends.refl wf).addCopies (tree (.element ⟨name, []⟩) nil)) htree hids hns
  exact ⟨⟨d.freshId, .element ⟨name, []⟩⟩, g, rfl, rfl, hg, hext, ht, hnew⟩

/-- A node at the top is not below another one. -/
theorem not_mem_of_root {f l r as l' r' bs : Forest Node} {up : List (Frame Node)} {a b : Node}
    (hnd : (Xml.ids f).Nodup) (ha : f = l ++ cons a as r)
    (hb : f = wrap up (l' ++ cons b bs r')) : a.id ∉ Xml.ids bs := by
  intro hmem
  obtain ⟨up₂, l₂, c, cs, r₂, rfl, hc⟩ := exists_spot hmem
  have h₁ := above?_spot hnd (eq_wrap_nil ha)
  have hspot : f = wrap (up₂ ++ ⟨l', b, r'⟩ :: up) (l₂ ++ cons c cs r₂) := by
    rw [hb, wrap_append]
    rfl
  have h₂ := above?_spot hnd hspot
  rw [hc, h₁] at h₂
  simp at h₂

/-- The children of an element are at the top after they have been taken out. -/
theorem takeChildren_parted {node : Node} {g : Forest Node} (wf : d.WellFormed)
    (ht : d.treeAt n = tree node g) :
    (d.takeChildren n).1 = g.roots.map Node.id ∧ (d.takeChildren n).2.Parted g := by
  obtain ⟨hn, rfl⟩ := wf.mem_ids_of_treeAt ht
  have hgrows := wf.grows_takeChildren node.id
  have hfirst : (d.treeAt node.id).firstChildren = g := by rw [ht]; rfl
  have hnd : (Xml.ids (tree node g)).Nodup := ht ▸ wf.nodup_treeAt node.id
  have htop : ∀ m, (d.takeChildren node.id).2.treeAt m =
      if m ∈ Xml.ids g then d.treeAt m
      else (d.treeAt m).replace (·.id == node.id) fun node _ => tree node nil := by
    intro m
    rw [wf.treeAt_takeChildren, hfirst]
  refine ⟨by rw [wf.takeChildren, children, hfirst], ?_, ?_, ?_⟩
  · exact (List.nodup_cons.mp (by simpa using hnd)).2
  · intro l a as r he
    have hin : a.id ∈ Xml.ids g := by simp [he]
    rw [htop, if_pos hin, ← wf.treeAt_children ht hin]
    exact treeAt_spot (List.nodup_cons.mp (by simpa using hnd)).2 (eq_wrap_nil he)
  · intro l a as r he
    have hin : a.id ∈ Xml.ids g := by simp [he]
    rw [parent?_eq_none_iff hgrows.wellFormed]
    intro k hk hmem
    rw [htop] at hmem
    split at hmem
    · next hkg =>
      -- A child of the new element is not below another one.
      rw [← wf.treeAt_children ht hkg] at hmem
      have hndg := (List.nodup_cons.mp (by simpa using hnd)).2
      obtain ⟨up, l', b, bs, r', hg', rfl⟩ := exists_spot hkg
      rw [treeAt_spot hndg hg', ids_tree, List.mem_cons, or_iff_right (Ne.symm hk)] at hmem
      exact not_mem_of_root hndg he hg' hmem
    · obtain ⟨l', r', outer, hf, -⟩ := wf.exists_below (ht.trans (congrArg (tree node) (eq_wrap_nil rfl)))
      have hparent : d.parent? a.id = some node.id := by
        rw [he] at hf
        rw [parent?_eq wf hf]
        rfl
      by_cases hnk : node.id ∈ Xml.ids (d.treeAt k)
      · have hcount := (perm_ids_replace (fun a _ => tree a nil)
          ((wf.treeAt_treeAt hnk).trans ht)).count_eq a.id
        have h₁ := List.count_pos_iff.mpr hmem
        have h₂ := List.nodup_iff_count.mp (wf.nodup_treeAt k) a.id
        have h₃ : 0 < (Xml.ids (tree node g)).count a.id := List.count_pos_iff.mpr (by simp [hin])
        have hne : a.id ≠ node.id := fun h => (List.nodup_cons.mp (by simpa using hnd)).1 (h ▸ hin)
        have h₄ : (Xml.ids (tree node nil)).count a.id = 0 :=
          List.count_eq_zero.mpr (by simpa using hne)
        rw [List.count_append, List.count_append, h₄] at hcount
        omega
      · rw [replace_eq_self_of_not_mem hnk] at hmem
        have hkd : k ∈ d.ids := by
          by_contra hno
          rw [wf.treeAt_eq_nil hno] at hmem
          simp at hmem
        obtain ⟨b, bs, hb, hk'⟩ := wf.exists_treeAt hkd
        rw [hk', ids_tree, List.mem_cons, hb, or_iff_right (Ne.symm hk)] at hmem
        obtain ⟨q, hq, hqa⟩ := wf.exists_parent hk' hmem
        rw [hparent] at hqa
        exact hnk (Option.some.inj hqa ▸ hq)

/-- The children of a new element are loose after they have been taken out. -/
theorem takeChildren_spec {node : Node} {g : Forest Node} (wf₀ : d₀.WellFormed)
    (h : d₀.Extends d) (ht : d.treeAt n = tree node g)
    (hnew : ∀ i ∈ Xml.ids (tree node g), d₀.fresh ≤ i.number) (hs : scope ∈ d₀.ids) :
    (d.takeChildren n).1 = g.roots.map Node.id ∧ d₀.Extends (d.takeChildren n).2 ∧
      (d.takeChildren n).2.Loose scope g := by
  have wf := h.grows.wellFormed
  obtain ⟨hn, rfl⟩ := wf.mem_ids_of_treeAt ht
  obtain ⟨hns, hparted⟩ := takeChildren_parted wf ht
  have hfirst : (d.treeAt node.id).firstChildren = g := by rw [ht]; rfl
  have hsame : ∀ m ∈ d₀.ids, (d.takeChildren node.id).2.treeAt m = d₀.treeAt m := by
    intro m hm
    have hnot : ∀ i ∈ Xml.ids (tree node g), i ∉ Xml.ids (d₀.treeAt m) := by
      intro i hi hi'
      have := hnew i hi
      have := wf₀.lt_fresh_of_treeAt hi'
      omega
    rw [wf.treeAt_takeChildren, hfirst, if_neg, h.treeAt_eq m hm]
    · exact replace_eq_self_of_not_mem (hnot node.id (by simp))
    · exact fun hmem => hnot m (by simp [hmem]) (wf₀.mem_treeAt_self hm)
  refine ⟨hns, ⟨h.grows.trans (wf.grows_takeChildren node.id), hsame⟩, hparted, fun i hi hmem => ?_⟩
  rw [hsame scope hs] at hmem
  have := hnew i (by simp [hi])
  have := wf₀.lt_fresh_of_treeAt hmem
  omega

end WordTemplate.Xml.Document
