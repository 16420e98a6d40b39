import Mathlib.Logic.Relation
import WordTemplate.Proofs.Xml.Dividing
import WordTemplate.Proofs.Xml.Removal

/-!
# Ways through a document

A document is walked down with a stack of the nodes that are still to be visited, and up from a node to its
parent. `IsBelow` says that one or more steps up lead from one node to another, and everything that is found
on a way down or up is said with it.

* `WellFormed.walk_iff`: the walk from the children of a node ends, with the nodes below it in document order.
* `WellFormed.innerText_eq_join`: the text of a node is put together from the texts that the walk meets.
* `WellFormed.commonAncestor?_eq_some_iff`: the lowest node above two nodes.
* `WellFormed.childToward?_eq_some_iff`, `WellFormed.childToward?_eq_iff`: the children through which the way
  down to a node leads, and when two nodes are below the same one.
* `WellFormed.navigable`: all this together.
-/

namespace WordTemplate.Xml

open Forest Relation

namespace Document

variable {d : Document} {a b c c' m n p q : NodeId}

/-! ## Up -/

/-- Whether one or more steps from a node to its parent lead from `m` to `n`. -/
def IsBelow (d : Document) (m n : NodeId) : Prop :=
  TransGen (fun child parent => d.parent? child = some parent) m n

theorem rightUnique_parent? (d : Document) :
    Relator.RightUnique fun child parent => d.parent? child = some parent :=
  fun _ _ _ h h' => Option.some.inj (h.symm.trans h')

theorem IsBelow.trans (h : d.IsBelow a b) (h' : d.IsBelow b c) : d.IsBelow a c :=
  TransGen.trans h h'

/-- The nodes above a node are those that it is below. -/
theorem WellFormed.mem_ancestors_iff_isBelow (wf : d.WellFormed) : n ∈ d.ancestors m ↔ d.IsBelow m n := by
  constructor
  · intro h
    -- Along the list of the nodes above.
    generalize hup : d.ancestors m = up at h
    induction up generalizing m with
    | nil => cases h
    | cons p up ih =>
      have hp : d.parent? m = some p := by rw [parent?, hup]; rfl
      obtain ⟨-, hrest⟩ := List.cons.inj ((wf.ancestors_of_parent? hp).symm.trans hup)
      rcases List.mem_cons.mp h with rfl | h
      · exact .single hp
      · exact .head hp (ih hrest h)
  · intro h
    induction h using TransGen.head_induction_on with
    | single hp => exact wf.ancestors_of_parent? hp ▸ List.mem_cons_self
    | head hp _ ih => exact wf.ancestors_of_parent? hp ▸ List.mem_cons_of_mem _ ih

theorem WellFormed.isAncestor_iff_isBelow (wf : d.WellFormed) :
    d.isAncestor n m = true ↔ d.IsBelow m n := by
  rw [isAncestor, List.contains_iff_mem, wf.mem_ancestors_iff_isBelow]

theorem WellFormed.not_isBelow_self (wf : d.WellFormed) (n : NodeId) : ¬ d.IsBelow n n := fun h =>
  (List.nodup_cons.mp (wf.nodup_ancestors n)).1 (wf.mem_ancestors_iff_isBelow.mpr h)

/-- Behind a node on the way up are the nodes above it. -/
theorem WellFormed.ancestors_of_append {l r : List NodeId} (wf : d.WellFormed)
    (h : d.ancestors n = l ++ p :: r) : d.ancestors p = r := by
  induction l generalizing n with
  | nil =>
    have hp : d.parent? n = some p := by rw [parent?, h]; rfl
    exact (List.cons.inj ((wf.ancestors_of_parent? hp).symm.trans h)).2
  | cons x l ih =>
    have hx : d.parent? n = some x := by rw [parent?, h]; rfl
    exact ih (List.cons.inj ((wf.ancestors_of_parent? hx).symm.trans h)).2

/-! ## Down -/

/-- A walk down: the first node on the stack is visited, and its children take its place. The walk ends when
nothing is left on the stack; the second list has the nodes that were visited. -/
inductive Walk (d : Document) : List NodeId → List NodeId → Prop where
  | done : Walk d [] []
  | visit {n : NodeId} {stack visited : List NodeId} :
    Walk d (d.children n ++ stack) visited → Walk d (n :: stack) (n :: visited)

theorem Walk.eq {stack visited visited' : List NodeId} (h : Walk d stack visited)
    (h' : Walk d stack visited') : visited = visited' := by
  induction h generalizing visited' with
  | done =>
    cases h'
    rfl
  | visit _ ih =>
    cases h' with
    | visit h' => rw [ih h']

/-- What holds of a forest below a node by induction on the trees in it. -/
theorem WellFormed.below_induction {P : Forest Node → Prop} {A : Node} {X : Forest Node} (wf : d.WellFormed)
    (ht : d.treeAt n = tree A X) (nil : P nil)
    (cons : ∀ a as rest, d.treeAt a.id = tree a as → P as → P rest → P (cons a as rest)) : P X := by
  -- The last trees below a node, whatever stands in front of them.
  have key : ∀ (f : Forest Node) (m : NodeId) (B : Node) (l : Forest Node),
      d.treeAt m = tree B (l ++ f) → P f := by
    intro f
    induction f with
    | nil => exact fun _ _ _ _ => nil
    | cons a as rest ihc ihr =>
      intro m B l hm
      have ha := wf.treeAt_child hm
      exact cons a as rest ha (ihc a.id a .nil ha) (ihr m B (l ++ tree a as) (by rw [hm, append_assoc]; rfl))
  exact key X n A .nil ht

/-- Below a node are its children, each followed by what is below it. -/
theorem WellFormed.descendants_eq (wf : d.WellFormed) (n : NodeId) :
    d.descendants n = (d.children n).flatMap fun c => c :: d.descendants c := by
  by_cases hn : n ∈ d.ids
  · obtain ⟨A, cs, -, ht⟩ := wf.exists_treeAt hn
    rw [descendants_of_tree ht, children_of_tree ht]
    refine wf.below_induction
      (P := fun f => Xml.ids f = (f.roots.map Node.id).flatMap fun c => c :: d.descendants c) ht rfl ?_
    intro a as rest ha _ ih
    rw [ids_cons, ih, roots, List.map_cons, List.flatMap_cons, descendants_of_tree ha]
    rfl
  · rw [wf.children_eq_nil hn, descendants, nodesBelow, wf.treeAt_eq_nil hn]
    rfl

/-- Nodes on the stack are visited each with what is below it, before those behind them. -/
theorem WellFormed.walk_append (wf : d.WellFormed) {stack visited : List NodeId} (h : Walk d stack visited)
    (ns : List NodeId) :
    Walk d (ns ++ stack) ((ns.flatMap fun n => n :: d.descendants n) ++ visited) := by
  -- On the number of visits to come.
  induction hk : (ns.flatMap fun n => n :: d.descendants n).length using Nat.strongRecOn
    generalizing ns with
  | ind k ih =>
    cases ns with
    | nil => exact h
    | cons n ns =>
      have hvisits : ((d.children n ++ ns).flatMap fun c => c :: d.descendants c) =
          d.descendants n ++ ns.flatMap fun c => c :: d.descendants c := by
        rw [List.flatMap_append, ← wf.descendants_eq]
      have hwalk := ih _ (by rw [← hk, hvisits, List.flatMap_cons]; simp) (d.children n ++ ns) rfl
      rw [hvisits, List.append_assoc] at hwalk
      exact .visit hwalk

/-- The walk from the children of a node ends, and it meets the nodes below in document order. -/
theorem WellFormed.walk_iff (wf : d.WellFormed) {visited : List NodeId} :
    Walk d (d.children n) visited ↔ visited = d.descendants n := by
  have hwalk : Walk d (d.children n) (d.descendants n) := by
    simpa [← wf.descendants_eq] using wf.walk_append .done (d.children n)
  exact ⟨fun h => h.eq hwalk, fun h => h ▸ hwalk⟩

theorem WellFormed.mem_descendants_iff_isBelow (wf : d.WellFormed) :
    m ∈ d.descendants n ↔ d.IsBelow m n := by
  rw [wf.mem_descendants_iff, ← wf.isAncestor_iff_isBelow]
  refine ⟨fun h => wf.isAncestor_of_mem h.1 h.2, fun h => ⟨wf.mem_treeAt_of_isAncestor h, ?_⟩⟩
  rintro rfl
  exact wf.not_isBelow_self m (wf.isAncestor_iff_isBelow.mp h)

section Texts

variable (wf : d.WellFormed) (htexts : ∀ n ∈ d.ids, (d.text? n).isSome → d.children n = [])
include wf htexts

/-- In front of other trees there is the text of a node itself, or the text of what is below it. -/
theorem WellFormed.innerText_cons {A : Node} {X rest : Forest Node} (ht : d.treeAt A.id = tree A X)
    (hX : Xml.innerText (labels X) = String.join ((Xml.ids X).filterMap d.text?))
    (hrest : Xml.innerText (labels rest) = String.join ((Xml.ids rest).filterMap d.text?)) :
    Xml.innerText (labels (cons A X rest)) = String.join ((Xml.ids (cons A X rest)).filterMap d.text?) := by
  have hlabel := (wf.label?_of_tree ht).1
  have htext : d.text? A.id = A.label.text? := by rw [text?, hlabel, Option.bind_some]
  rw [labels_cons, ids_cons]
  cases hcase : A.label with
  | element tag =>
    rw [hcase] at htext
    simp [Xml.innerText, hX, hrest, htext, Label.text?]
  | text content =>
    rw [hcase] at htext
    have hleaf := htexts A.id (wf.mem_ids_of_label? hlabel) (by rw [htext]; rfl)
    obtain rfl : X = nil := by
      rw [children_of_tree ht] at hleaf
      cases X with
      | nil => rfl
      | cons b bs r => cases hleaf
    simp [Xml.innerText, hrest, htext, Label.text?]

/-- The text of a node is put together from the texts at it and below it, in the order of the walk. -/
theorem WellFormed.innerText_eq_join (n : NodeId) :
    d.innerText n = String.join ((n :: d.descendants n).filterMap d.text?) := by
  by_cases hn : n ∈ d.ids
  · obtain ⟨A, X, rfl, ht⟩ := wf.exists_treeAt hn
    have hX := wf.below_induction
      (P := fun f => Xml.innerText (labels f) = String.join ((Xml.ids f).filterMap d.text?)) ht
      (by simp [Xml.innerText]) fun a as rest => wf.innerText_cons htexts
    rw [innerText, labelsAt, descendants_of_tree ht, ht, ← ids_tree]
    exact wf.innerText_cons htexts ht hX (by simp [Xml.innerText])
  · have htree := wf.treeAt_eq_nil hn
    simp [innerText, labelsAt, descendants, nodesBelow, text?, label?, htree, Xml.innerText, firstChildren,
      toList, roots]

end Texts

/-! ## From two nodes -/

/-- The node found above two nodes is above both, and below every other such node. -/
theorem WellFormed.commonAncestor?_eq_some (wf : d.WellFormed) (h : d.commonAncestor? a b = some p) :
    d.IsBelow a p ∧ d.IsBelow b p ∧ ∀ q, d.IsBelow a q → d.IsBelow b q → q = p ∨ d.IsBelow p q := by
  obtain ⟨hp, l, r, hup, hfirst⟩ := List.find?_eq_some_iff_append.mp h
  have hrest := wf.ancestors_of_append hup
  simp only [← wf.mem_ancestors_iff_isBelow]
  refine ⟨List.contains_iff_mem.mp hp, by simp [hup], fun q ha hb => ?_⟩
  rw [hup, List.mem_append, List.mem_cons] at hb
  rcases hb with hb | rfl | hb
  · simpa [ha] using hfirst q hb
  · exact .inl rfl
  · exact .inr (hrest ▸ hb)

theorem WellFormed.isSome_commonAncestor?_iff (wf : d.WellFormed) :
    (d.commonAncestor? a b).isSome ↔ ∃ p, d.IsBelow a p ∧ d.IsBelow b p := by
  rw [commonAncestor?, List.find?_isSome]
  simp only [List.contains_iff_mem, wf.mem_ancestors_iff_isBelow, and_comm]

/-- There is one node above two nodes that is below every other such node, and it is found. -/
theorem WellFormed.commonAncestor?_eq_some_iff (wf : d.WellFormed) :
    d.commonAncestor? a b = some p ↔
      d.IsBelow a p ∧ d.IsBelow b p ∧ ∀ q, d.IsBelow a q → d.IsBelow b q → q = p ∨ d.IsBelow p q := by
  refine ⟨wf.commonAncestor?_eq_some, fun ⟨ha, hb, hlowest⟩ => ?_⟩
  obtain ⟨q, hq⟩ := Option.isSome_iff_exists.mp (wf.isSome_commonAncestor?_iff.mpr ⟨p, ha, hb⟩)
  obtain ⟨haq, hbq, hlowest'⟩ := wf.commonAncestor?_eq_some hq
  rw [hq, Option.some.injEq]
  refine (hlowest q haq hbq).resolve_right fun hpq => ?_
  rcases hlowest' p ha hb with rfl | hqp
  · exact wf.not_isBelow_self p hpq
  · exact wf.not_isBelow_self p (hpq.trans hqp)

theorem WellFormed.commonAncestor?_comm (wf : d.WellFormed) (a b : NodeId) :
    d.commonAncestor? a b = d.commonAncestor? b a := by
  refine Option.ext fun p => ?_
  rw [wf.commonAncestor?_eq_some_iff, wf.commonAncestor?_eq_some_iff]
  exact ⟨fun ⟨ha, hb, h⟩ => ⟨hb, ha, fun q hb ha => h q ha hb⟩,
    fun ⟨hb, ha, h⟩ => ⟨ha, hb, fun q ha hb => h q hb ha⟩⟩

/-- The way up from a node to one above it leads through one child of that. -/
theorem WellFormed.eq_of_parent? (wf : d.WellFormed) (hc : d.parent? c = some p) (hc' : d.parent? c' = some p)
    (h : c = n ∨ d.IsBelow n c) (h' : c' = n ∨ d.IsBelow n c') : c = c' := by
  -- Of two nodes on the way one is at or above the other, and above it only if it is above the parent.
  have hself : ∀ {x y : NodeId}, d.parent? x = some p → d.parent? y = some p → ¬ d.IsBelow x y := by
    intro x y hx hy hxy
    obtain ⟨q, hq, hqy⟩ := TransGen.head'_iff.mp hxy
    obtain rfl : p = q := Option.some.inj (hx.symm.trans hq)
    exact wf.not_isBelow_self p (TransGen.tail' hqy hy)
  have hway := ReflTransGen.total_of_right_unique d.rightUnique_parent?
    (reflTransGen_iff_eq_or_transGen.mpr h) (reflTransGen_iff_eq_or_transGen.mpr h')
  rcases hway with hway | hway
  · rcases reflTransGen_iff_eq_or_transGen.mp hway with he | hlt
    · exact he.symm
    · exact absurd hlt (hself hc hc')
  · rcases reflTransGen_iff_eq_or_transGen.mp hway with he | hlt
    · exact he
    · exact absurd hlt (hself hc' hc)

/-- The child found is the one that the node is, or is below. -/
theorem WellFormed.childToward?_eq_some_iff (wf : d.WellFormed) :
    d.childToward? p n = some c ↔ d.parent? c = some p ∧ (c = n ∨ d.IsBelow n c) := by
  have hfound : ∀ {x}, d.childToward? p n = some x → d.parent? x = some p ∧ (x = n ∨ d.IsBelow n x) := by
    intro x hx
    refine ⟨by simpa using List.find?_some hx, ?_⟩
    rw [← wf.mem_ancestors_iff_isBelow]
    exact List.mem_cons.mp (List.mem_of_find?_eq_some hx)
  refine ⟨hfound, fun ⟨hc, hway⟩ => ?_⟩
  cases hx : d.childToward? p n with
  | none =>
    rw [← wf.mem_ancestors_iff_isBelow] at hway
    exact absurd hc (by simpa using List.find?_eq_none.mp hx c (List.mem_cons.mpr hway))
  | some x =>
    obtain ⟨hx, hwayx⟩ := hfound hx
    rw [wf.eq_of_parent? hx hc hwayx hway]

theorem WellFormed.exists_childToward? (wf : d.WellFormed) (h : d.IsBelow n p) :
    ∃ c, d.childToward? p n = some c := by
  obtain ⟨c, hway, hc⟩ := TransGen.tail'_iff.mp h
  exact ⟨c, wf.childToward?_eq_some_iff.mpr ⟨hc, reflTransGen_iff_eq_or_transGen.mp hway⟩⟩

/-- From the lowest node above both, the ways to two nodes lead through the same child only if one of them
is at or below the other. -/
theorem WellFormed.childToward?_eq_iff (wf : d.WellFormed) (h : d.commonAncestor? a b = some p)
    (hc : d.childToward? p a = some c) (hc' : d.childToward? p b = some c') :
    c = c' ↔ a = b ∨ d.IsBelow a b ∨ d.IsBelow b a := by
  obtain ⟨-, -, hlowest⟩ := wf.commonAncestor?_eq_some h
  obtain ⟨hp, hway⟩ := wf.childToward?_eq_some_iff.mp hc
  obtain ⟨hp', hway'⟩ := wf.childToward?_eq_some_iff.mp hc'
  constructor
  · rintro rfl
    rcases hway with rfl | hac
    · exact hway'.imp id .inr
    · rcases hway' with rfl | hbc
      · exact .inr (.inl hac)
      · -- Then the child would be above both, and lower.
        rcases hlowest c hac hbc with rfl | hpc
        · exact (wf.not_isBelow_self c (.single hp)).elim
        · exact (wf.not_isBelow_self p (hpc.trans (.single hp))).elim
  · rintro (rfl | hab | hba)
    · exact wf.eq_of_parent? hp hp' hway hway'
    · exact wf.eq_of_parent? hp hp' hway (.inr (hway'.elim (· ▸ hab) hab.trans))
    · exact wf.eq_of_parent? hp hp' (.inr (hway.elim (· ▸ hba) hba.trans)) hway'

/-! ## All ways -/

/-- Whether all ways through a document lead where its parents and children say. -/
structure Navigable (d : Document) : Prop where
  /-- A walk down ends, in one way only, and meets the nodes below in document order: -/
  walk_iff : ∀ n visited, Walk d (d.children n) visited ↔ visited = d.descendants n
  /-- the children from the first to the last, each followed by what is below it. -/
  descendants_eq : ∀ n, d.descendants n = (d.children n).flatMap fun c => c :: d.descendants c
  mem_descendants_iff : ∀ m n, m ∈ d.descendants n ↔ d.IsBelow m n
  nodup_descendants : ∀ n, (d.descendants n).Nodup
  innerText_eq : ∀ n, d.innerText n = String.join ((n :: d.descendants n).filterMap d.text?)
  isSome_commonAncestor?_iff : ∀ a b,
    (d.commonAncestor? a b).isSome ↔ ∃ p, d.IsBelow a p ∧ d.IsBelow b p
  commonAncestor?_comm : ∀ a b, d.commonAncestor? a b = d.commonAncestor? b a
  commonAncestor?_eq_some_iff : ∀ a b p, d.commonAncestor? a b = some p ↔
    d.IsBelow a p ∧ d.IsBelow b p ∧ ∀ q, d.IsBelow a q → d.IsBelow b q → q = p ∨ d.IsBelow p q
  childToward?_eq_some_iff : ∀ p n c,
    d.childToward? p n = some c ↔ d.parent? c = some p ∧ (c = n ∨ d.IsBelow n c)
  /-- From the lowest node above two nodes one child leads to each of them. It is the same child if one of
  the two is the other or below it. -/
  exists_childToward? : ∀ a b p, d.commonAncestor? a b = some p → ∃ c c',
    d.childToward? p a = some c ∧ d.childToward? p b = some c' ∧
      (c = c' ↔ a = b ∨ d.IsBelow a b ∨ d.IsBelow b a)

/-- Every well-formed document in which nothing is below a text. -/
theorem WellFormed.navigable (wf : d.WellFormed)
    (htexts : ∀ n ∈ d.ids, (d.text? n).isSome → d.children n = []) : d.Navigable where
  walk_iff _ _ := wf.walk_iff
  descendants_eq := wf.descendants_eq
  mem_descendants_iff _ _ := wf.mem_descendants_iff_isBelow
  nodup_descendants _ := wf.nodup_descendants
  innerText_eq := wf.innerText_eq_join htexts
  isSome_commonAncestor?_iff _ _ := wf.isSome_commonAncestor?_iff
  commonAncestor?_comm := wf.commonAncestor?_comm
  commonAncestor?_eq_some_iff _ _ _ := wf.commonAncestor?_eq_some_iff
  childToward?_eq_some_iff _ _ _ := wf.childToward?_eq_some_iff
  exists_childToward? a b p h := by
    obtain ⟨ha, hb, -⟩ := wf.commonAncestor?_eq_some h
    obtain ⟨c, hc⟩ := wf.exists_childToward? ha
    obtain ⟨c', hc'⟩ := wf.exists_childToward? hb
    exact ⟨c, c', hc, hc', wf.childToward?_eq_iff h hc hc'⟩

/-- Two paragraphs, of which the first has two runs with a text each; the second run was taken out. -/
def dividedRuns : Document :=
  (ofTree ⟨"w:body", []⟩ <|
    tree (.element ⟨"w:p", []⟩)
      (tree (.element ⟨"w:r", []⟩) (tree (.text "a") nil) ++ tree (.element ⟨"w:r", []⟩) (tree (.text "b") nil)) ++
    tree (.element ⟨"w:p", []⟩) nil).detach ⟨4⟩

theorem navigable_dividedRuns :
    dividedRuns.WellFormed ∧ (∀ n ∈ dividedRuns.ids, (dividedRuns.text? n).isSome → dividedRuns.children n = []) ∧
      dividedRuns.Navigable := by
  have wf : dividedRuns.WellFormed := ((wellFormed_ofTree ..).grows_detach ⟨4⟩).wellFormed
  have htexts : ∀ n ∈ dividedRuns.ids, (dividedRuns.text? n).isSome → dividedRuns.children n = [] := by
    decide
  exact ⟨wf, htexts, wf.navigable htexts⟩

end Document

end WordTemplate.Xml
