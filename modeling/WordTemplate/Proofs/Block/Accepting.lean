import Mathlib.Data.List.Infix
import WordTemplate.Proofs.Block.Reading

/-!
# Which directives can be nested

How many blocks are open after some directives is a matter of counting: `depth`. Directives are accepted
just if none that separates or ends sections stands where no block is open, and no block is open in the
end. The machine that nests them is not mentioned in this description, nor in what is said of its errors.

The invariant of the machine (`Progress.Took`) has one part for each thing that is claimed: how many
blocks are open, which ones, that the markers which have been taken up can be read off again, and that
what is built so far can be completed to an arranged forest.

* `exists_nest_of_directives`: what is accepted does not depend on the text elements.
* `nest_accepts`: what is accepted, the error otherwise, and what is built.
-/

namespace WordTemplate

open Forest

/-! ## Counting -/

namespace Marker

variable (m : Marker)

/-- Whether a block of several sections begins. -/
def opens : Bool :=
  m.directive.kind.isBlockStart && m.directive.kind != .inlineKeyword

/-- Whether a block ends. -/
def closes : Bool :=
  m.directive.kind.isBlockEnd

/-- Whether this makes sense within a block only. -/
def needsBlock : Bool :=
  m.directive.kind.isSeparator || m.directive.kind.isBlockEnd

/-- By how much the number of open blocks changes. -/
def weight : Int :=
  if m.opens then 1 else if m.closes then -1 else 0

end Marker

namespace Block

/-- The number of blocks that are open after these directives. -/
def depth : List Marker → Int
  | [] => 0
  | m :: ms => m.weight + depth ms

/-- Whether no directive that needs a block stands where none is open. -/
def Sheltered (ms : List Marker) : Prop :=
  ∀ u m v, ms = u ++ m :: v → m.needsBlock = true → depth u ≠ 0

/-- The directives whose blocks are still open in the end: what follows such a directive never ends more
blocks than it begins. -/
def stillOpen : List Marker → List Marker
  | [] => []
  | m :: ms =>
    if m.opens = true ∧ ∀ u ∈ ms.inits, 0 ≤ depth u then m :: stillOpen ms else stillOpen ms

section Counting

variable {m : Marker} {u v : List Marker}

@[simp] theorem depth_nil : depth [] = 0 := rfl

@[simp] theorem depth_cons : depth (m :: u) = m.weight + depth u := rfl

@[simp] theorem depth_append : depth (u ++ v) = depth u + depth v := by
  induction u with
  | nil => simp
  | cons m u ih => simp [ih]; omega

theorem weight_of_opens (h : m.opens = true) : m.weight = 1 := by
  rw [Marker.weight, if_pos h]

theorem opens_eq_false_of_needsBlock (h : m.needsBlock = true) : m.opens = false := by
  rw [Marker.needsBlock] at h
  rw [Marker.opens]
  revert h
  cases m.directive.kind <;> decide

theorem opens_eq_false_of_closes (h : m.closes = true) : m.opens = false :=
  opens_eq_false_of_needsBlock (by rw [Marker.needsBlock, ← Marker.closes, h, Bool.or_true])

theorem weight_of_closes (h : m.closes = true) : m.weight = -1 := by
  rw [Marker.weight, opens_eq_false_of_closes h, h]
  rfl

theorem weight_of_not (ho : m.opens = false) (hc : m.closes = false) : m.weight = 0 := by
  rw [Marker.weight, ho, hc]
  rfl

theorem sheltered_nil : Sheltered [] := by
  rintro u m v h
  simp at h

/-- One more directive, which has a block if it needs one. -/
theorem sheltered_concat : Sheltered (u ++ [m]) ↔
    Sheltered u ∧ (m.needsBlock = true → depth u ≠ 0) := by
  constructor
  · intro h
    exact ⟨fun x n y hu => h x n (y ++ [m]) (by simp [hu]), h u m [] rfl⟩
  · rintro ⟨hu, hm⟩ x n y he hn
    rcases List.eq_nil_or_concat y with rfl | ⟨y, n', rfl⟩
    · obtain ⟨rfl, h⟩ := List.append_inj' he rfl
      cases h
      exact hm hn
    · rw [List.concat_eq_append, ← List.cons_append, ← List.append_assoc] at he
      exact hu x n y (List.append_inj' he rfl).1 hn

instance decidableSheltered (ms : List Marker) : Decidable (Sheltered ms) :=
  decidable_of_iff (∀ i : Fin ms.length, ms[i].needsBlock = true → depth (ms.take i) ≠ 0) <| by
    constructor
    · rintro h u m v rfl hm
      have := h ⟨u.length, by simp⟩
      simp only [Fin.getElem_fin, List.getElem_append_right (Nat.le_refl _), Nat.sub_self,
        List.getElem_cons_zero, List.take_left] at this
      exact this hm
    · intro h i hm
      exact h _ _ (ms.drop (i + 1)) (by simp) hm

/-- Otherwise there is a first directive that has no block. -/
theorem exists_first_of_not_sheltered {ms : List Marker} (h : ¬ Sheltered ms) :
    ∃ u m v, ms = u ++ m :: v ∧ Sheltered u ∧ m.needsBlock = true ∧ depth u = 0 := by
  induction ms using List.reverseRecOn with
  | nil => exact absurd sheltered_nil h
  | append_singleton ms m ih =>
    by_cases hms : Sheltered ms
    · have hm : ¬ (m.needsBlock = true → depth ms ≠ 0) := fun hm => h (sheltered_concat.mpr ⟨hms, hm⟩)
      rw [Classical.not_imp, not_not] at hm
      exact ⟨ms, m, [], rfl, hms, hm.1, hm.2⟩
    · obtain ⟨u, n, v, rfl, hrest⟩ := ih hms
      exact ⟨u, n, v ++ [m], by simp, hrest⟩

/-! ### Blocks that stay open -/

/-- How far the number of open blocks falls below what it was before. -/
def low : List Marker → Int
  | [] => 0
  | m :: ms => min 0 (m.weight + low ms)

theorem low_le_zero (u : List Marker) : low u ≤ 0 := by
  cases u with
  | nil => exact Int.le_refl 0
  | cons m u => exact Int.min_le_left ..

/-- Nothing that was open before is closed, just if the number never falls. -/
theorem low_eq_zero_iff : low u = 0 ↔ ∀ w ∈ u.inits, 0 ≤ depth w := by
  suffices key : ∀ k : Int, 0 ≤ k + low u ↔ ∀ w ∈ u.inits, 0 ≤ k + depth w by
    have hkey := key 0
    simp only [Int.zero_add] at hkey
    rw [← hkey]
    exact ⟨Int.ge_of_eq, Int.le_antisymm (low_le_zero u)⟩
  induction u with
  | nil => simp [low]
  | cons m u ih =>
    intro k
    have hmin : 0 ≤ k + low (m :: u) ↔ 0 ≤ k ∧ 0 ≤ k + m.weight + low u := by
      rw [low]
      omega
    rw [hmin, ih]
    simp [Int.add_assoc]

theorem stillOpen_cons : stillOpen (m :: u) =
    if m.opens = true ∧ low u = 0 then m :: stillOpen u else stillOpen u := by
  simp only [stillOpen, low_eq_zero_iff]

theorem low_append_singleton : low (u ++ [m]) = min (low u) (depth u + m.weight) := by
  induction u with
  | nil => simp [low]
  | cons n u ih =>
    simp only [List.cons_append, low, ih, depth_cons]
    omega

/-- The blocks that are open are those that were begun and stay open, on top of what was open before
and has not been closed. -/
theorem depth_eq_low_add (u : List Marker) : depth u = low u + (stillOpen u).length := by
  induction u with
  | nil => rfl
  | cons m u ih =>
    have hlow := low_le_zero u
    rw [depth_cons, ih, low, stillOpen_cons]
    cases ho : m.opens with
    | true =>
      rw [weight_of_opens ho]
      split
      · simp only [List.length_cons]
        omega
      · next h =>
        have : low u ≠ 0 := fun he => h ⟨rfl, he⟩
        omega
    | false =>
      have hweight : m.weight ≤ 0 := by
        rw [Marker.weight, ho, if_neg Bool.false_ne_true]
        split <;> decide
      rw [if_neg (by simp)]
      omega

/-- A directive that opens a block leaves it open. -/
theorem stillOpen_append_of_opens (h : m.opens = true) : stillOpen (u ++ [m]) = stillOpen u ++ [m] := by
  induction u with
  | nil => simp [stillOpen_cons, h, low, stillOpen]
  | cons n u ih =>
    have hdepth := depth_eq_low_add u
    have hlow : low (u ++ [m]) = low u := by
      have := low_le_zero u
      rw [low_append_singleton, weight_of_opens h]
      omega
    rw [List.cons_append, stillOpen_cons, stillOpen_cons, hlow, ih]
    split <;> rfl

/-- A directive that ends a block ends the last of those that are open. -/
theorem stillOpen_append_of_closes (h : m.closes = true) :
    stillOpen (u ++ [m]) = (stillOpen u).dropLast := by
  induction u with
  | nil => simp [stillOpen_cons, opens_eq_false_of_closes h, stillOpen]
  | cons n u ih =>
    have hdepth := depth_eq_low_add u
    have hle := low_le_zero u
    have hlow : low (u ++ [m]) = min (low u) (depth u - 1) := by
      rw [low_append_singleton, weight_of_closes h]
      rfl
    rw [List.cons_append, stillOpen_cons, stillOpen_cons, ih]
    by_cases hn : n.opens = true ∧ low u = 0
    · rw [if_pos hn]
      cases hu : stillOpen u with
      | nil =>
        rw [hu] at hdepth
        rw [if_neg (fun he => by have := he.2; simp at hdepth; omega)]
        rfl
      | cons x xs =>
        rw [hu] at hdepth
        simp only [List.length_cons] at hdepth
        rw [if_pos ⟨hn.1, by omega⟩]
        rfl
    · rw [if_neg hn, if_neg fun he => hn ⟨he.1, by have := he.2; omega⟩]

/-- Other directives leave the same blocks open. -/
theorem stillOpen_append_of_not (ho : m.opens = false) (hc : m.closes = false) :
    stillOpen (u ++ [m]) = stillOpen u := by
  induction u with
  | nil => simp [stillOpen_cons, ho, stillOpen]
  | cons n u ih =>
    have hdepth := depth_eq_low_add u
    have hlow : low (u ++ [m]) = low u := by
      rw [low_append_singleton, weight_of_not ho hc]
      omega
    rw [List.cons_append, stillOpen_cons, stillOpen_cons, hlow, ih]

end Counting

/-! ## What is built -/

/-- The markers of blocks as they are met on a walk: the start of a block, what is below it, and its end.
Of a section only the separator is met that begins it, and a keyword once. -/
def emitted : Forest Block → List Marker
  | .nil => []
  | .cons b inner rest =>
    (if b.kind = .content then [] else [b.start]) ++ emitted inner ++
      (if b.kind = .content ∨ b.kind.isSeparator = true ∨ b.kind = .inlineKeyword then [] else [b.stop]) ++
      emitted rest

/-- Whether blocks side by side are arranged as they ought to be, or the sections of a block from one of
its markers on, the first of which is of the given kind. -/
inductive Arranged : Role → Forest Block → Prop where
  | nil : Arranged .level nil
  | keyword {m : Marker} {B : Forest Block} : m.directive.kind = .inlineKeyword →
      Arranged .level B → Arranged .level (cons ⟨.inlineKeyword, m, m⟩ nil B)
  | block {start stop : Marker} {BS B : Forest Block} : start.opens = true → stop.closes = true →
      Arranged (.passages .content start stop) BS → Arranged .level B →
      Arranged .level (cons ⟨start.directive.kind, start, stop⟩ BS B)
  /-- The last section ends where the block ends. -/
  | last {kind : Directive.Kind} {start stop : Marker} {B : Forest Block} : Arranged .level B →
      Arranged (.passages kind start stop) (tree ⟨kind, start, stop⟩ B)
  /-- Another section ends where the next one begins. -/
  | more {kind : Directive.Kind} {start next stop : Marker} {B BS : Forest Block} :
      Arranged .level B → next.directive.kind.isSeparator = true →
      Arranged (.passages next.directive.kind next stop) BS →
      Arranged (.passages kind start stop) (cons ⟨kind, start, next⟩ B BS)

section Building

variable {B B' : Forest Block} {b : Built} {o : Opened} {m : Marker} {p : Progress}

theorem emitted_append : emitted (B ++ B') = emitted B ++ emitted B' := by
  induction B with
  | nil => rfl
  | cons b inner rest _ ih => simp only [cons_append, emitted, ih, List.append_assoc]

theorem emitted_ofTrees_cons {bs : List Built} :
    emitted (ofTrees (b :: bs).reverse) = emitted (ofTrees bs.reverse) ++ emitted (tree b.1 b.2) := by
  rw [ofTrees_reverse_cons, emitted_append]

theorem Arranged.append (h : Arranged .level B) (h' : Arranged .level B') :
    Arranged .level (B ++ B') := by
  generalize hr : Role.level = role at h
  induction h with
  | nil => exact h'
  | keyword hm _ ih => exact .keyword hm (ih hr)
  | block ho hc hBS _ _ ih => exact .block ho hc hBS (ih hr)
  | last => cases hr
  | more => cases hr

/-! ### The machine -/

/-- The markers of an open block. -/
def Opened.emitted (o : Opened) : List Marker :=
  o.start :: (Block.emitted (ofTrees o.sections.reverse) ++
    ((if o.sectionKind = .content then [] else [o.sectionStart]) ++
      Block.emitted (ofTrees o.inner.reverse)))

/-- The markers of all blocks so far. -/
def Progress.emitted (p : Progress) : List Marker :=
  Block.emitted (ofTrees p.roots.reverse) ++ (p.opened.reverse.map Opened.emitted).flatten

/-- What is so of an open block: any sections that follow complete it. -/
structure Opened.Arranged (o : Opened) : Prop where
  kind_eq : o.kind = o.start.directive.kind
  opens : o.start.opens = true
  sectionKind : o.sectionKind = .content ∨ o.sectionKind.isSeparator = true
  inner : Block.Arranged .level (ofTrees o.inner.reverse)
  complete : ∀ stop BS, Block.Arranged (.passages o.sectionKind o.sectionStart stop) BS →
    Block.Arranged (.passages .content o.start stop) (ofTrees o.sections.reverse ++ BS)

theorem Opened.arranged_begin (h : m.opens = true) : (Opened.begin m).Arranged where
  kind_eq := rfl
  opens := h
  sectionKind := .inl rfl
  inner := .nil
  complete _ _ h := h

theorem Opened.Arranged.add (h : o.Arranged) (hb : Block.Arranged .level (tree b.1 b.2)) :
    (o.add b).Arranged :=
  { h with
    inner := by
      rw [Opened.add, ofTrees_reverse_cons]
      exact h.inner.append hb }

theorem Opened.Arranged.separate (h : o.Arranged) (hm : m.directive.kind.isSeparator = true) :
    (o.separate m).Arranged where
  kind_eq := h.kind_eq
  opens := h.opens
  sectionKind := .inr hm
  inner := .nil
  complete stop BS hBS := by
    have := h.complete stop _ (.more h.inner hm hBS)
    rw [Opened.separate, ofTrees_reverse_cons, Forest.append_assoc]
    exact this

theorem Opened.Arranged.close (h : o.Arranged) (hm : m.closes = true) :
    Block.Arranged .level (tree (o.close m).1 (o.close m).2) := by
  rw [Opened.close, ofTrees_reverse_cons, h.kind_eq]
  exact .block h.opens hm (h.complete m _ (.last h.inner)) .nil

theorem Opened.emitted_begin : (Opened.begin m).emitted = [m] := rfl

theorem Opened.emitted_add : (o.add b).emitted = o.emitted ++ Block.emitted (tree b.1 b.2) := by
  rw [Opened.emitted, Opened.add, emitted_ofTrees_cons]
  simp [Opened.emitted]

/-- A section that has ended. -/
theorem Opened.Arranged.emitted_currentSection (h : o.Arranged) (m : Marker) :
    Block.emitted (tree (o.currentSection m).1 (o.currentSection m).2) =
      (if o.sectionKind = .content then [] else [o.sectionStart]) ++
        Block.emitted (ofTrees o.inner.reverse) := by
  have hsection : o.sectionKind = .content ∨ o.sectionKind.isSeparator = true ∨
      o.sectionKind = .inlineKeyword := h.sectionKind.imp_right .inl
  simp [tree, Block.emitted, Opened.currentSection, hsection]

theorem Opened.Arranged.emitted_separate (h : o.Arranged)
    (hm : m.directive.kind.isSeparator = true) : (o.separate m).emitted = o.emitted ++ [m] := by
  have hne : m.directive.kind ≠ .content := by
    intro he
    rw [he] at hm
    cases hm
  rw [Opened.emitted, Opened.separate, emitted_ofTrees_cons, h.emitted_currentSection, if_neg hne]
  simp [Opened.emitted, Block.emitted, ofTrees]

theorem Opened.Arranged.emitted_close (h : o.Arranged) (m : Marker) :
    Block.emitted (tree (o.close m).1 (o.close m).2) = o.emitted ++ [m] := by
  have hkind : o.kind ≠ .content ∧ o.kind.isSeparator = false ∧ o.kind ≠ .inlineKeyword := by
    have := h.opens
    rw [Marker.opens, ← h.kind_eq] at this
    revert this
    cases o.kind <;> decide
  rw [Opened.close, tree, Block.emitted, emitted_ofTrees_cons, h.emitted_currentSection]
  simp [Opened.emitted, Block.emitted, hkind]

theorem Progress.emitted_add : (p.add b).emitted = p.emitted ++ Block.emitted (tree b.1 b.2) := by
  obtain ⟨roots, opened⟩ := p
  cases opened with
  | nil =>
    rw [Progress.emitted, Progress.add, emitted_ofTrees_cons]
    simp [Progress.emitted]
  | cons o outer => simp [Progress.emitted, Progress.add, Opened.emitted_add]

theorem Progress.starts_add :
    (p.add b).opened.reverse.map Opened.start = p.opened.reverse.map Opened.start := by
  obtain ⟨roots, opened⟩ := p
  cases opened with
  | nil => rfl
  | cons o outer => simp [Progress.add, Opened.add]

theorem Progress.length_add : (p.add b).opened.length = p.opened.length := by
  simpa using congrArg List.length (Progress.starts_add (p := p) (b := b))

/-- Whether the complete blocks are arranged as they ought to be, and the open ones can be completed. -/
structure Progress.Arranged (p : Progress) : Prop where
  roots : Block.Arranged .level (ofTrees p.roots.reverse)
  opened : ∀ o ∈ p.opened, o.Arranged

/-- A complete block is added. -/
theorem Progress.Arranged.add (h : p.Arranged) (hb : Block.Arranged .level (tree b.1 b.2)) :
    (p.add b).Arranged := by
  obtain ⟨roots, opened⟩ := p
  cases opened with
  | nil =>
    refine ⟨?_, h.opened⟩
    rw [Progress.add, ofTrees_reverse_cons]
    exact h.roots.append hb
  | cons o outer =>
    refine ⟨h.roots, ?_⟩
    rintro o' (_ | ⟨_, ho'⟩)
    · exact (h.opened o (List.mem_cons_self ..)).add hb
    · exact h.opened o' (List.mem_cons_of_mem o ho')

/-- Whether a directive counts for how blocks are nested. Those in a text that do not are the
placeholders. -/
def isNested (m : Marker) : Bool :=
  m.directive.kind != .placeholder && m.directive.kind != .content

/-- What is so of the machine after it has taken up directives. -/
structure Progress.Took (p : Progress) (ms : List Marker) : Prop where
  depth_eq : depth ms = p.opened.length
  stillOpen_eq : stillOpen ms = p.opened.reverse.map Opened.start
  emitted_eq : p.emitted = ms.filter isNested
  arranged : p.Arranged

variable {p' : Progress} {ms : List Marker} {outer : List Opened}

theorem Progress.took_nil : Progress.Took ⟨[], []⟩ [] :=
  ⟨rfl, rfl, rfl, .nil, by simp⟩

/-- A keyword is a block of its own. -/
theorem Progress.Took.keyword (h : p.Took ms) (hm : m.directive.kind = .inlineKeyword) :
    (p.add (⟨m.directive.kind, m, m⟩, nil)).Took (ms ++ [m]) := by
  have ho : m.opens = false := by rw [Marker.opens, hm]; rfl
  have hc : m.closes = false := by rw [Marker.closes, hm]; rfl
  have hb : Block.Arranged .level (tree ⟨m.directive.kind, m, m⟩ nil) := by
    rw [hm]
    exact .keyword hm .nil
  refine ⟨?_, ?_, ?_, h.arranged.add hb⟩
  · rw [depth_append, h.depth_eq, depth_cons, weight_of_not ho hc, Progress.length_add]
    rfl
  · rw [stillOpen_append_of_not ho hc, h.stillOpen_eq, Progress.starts_add]
  · rw [Progress.emitted_add, h.emitted_eq, List.filter_append]
    simp [isNested, hm, tree, Block.emitted]

/-- A block begins. -/
theorem Progress.Took.begin (h : p.Took ms) (hm : m.opens = true) :
    ({ p with opened := .begin m :: p.opened } : Progress).Took (ms ++ [m]) := by
  have hnested : isNested m = true := by
    rw [Marker.opens] at hm
    rw [isNested]
    revert hm
    cases m.directive.kind <;> decide
  refine ⟨?_, ?_, ?_, h.arranged.roots, ?_⟩
  · rw [depth_append, h.depth_eq, depth_cons, weight_of_opens hm]
    simp
  · rw [stillOpen_append_of_opens hm, h.stillOpen_eq]
    simp [Opened.begin]
  · rw [List.filter_append, ← h.emitted_eq, List.filter_cons_of_pos hnested]
    simp [Progress.emitted, Opened.emitted_begin]
  · rintro o (_ | ⟨_, ho⟩)
    · exact Opened.arranged_begin hm
    · exact h.arranged.opened o ho

/-- Another section of the innermost open block begins. -/
theorem Progress.Took.separate (h : p.Took ms) (ho : p.opened = o :: outer)
    (hm : m.directive.kind.isSeparator = true) :
    ({ p with opened := o.separate m :: outer } : Progress).Took (ms ++ [m]) := by
  obtain ⟨roots, opened⟩ := p
  obtain rfl : opened = o :: outer := ho
  have hopens : m.opens = false := by
    rw [Marker.opens]
    revert hm
    cases m.directive.kind <;> decide
  have hcloses : m.closes = false := by
    rw [Marker.closes]
    revert hm
    cases m.directive.kind <;> decide
  have hnested : isNested m = true := by
    rw [isNested]
    revert hm
    cases m.directive.kind <;> decide
  have hopened := h.arranged.opened o (List.mem_cons_self ..)
  refine ⟨?_, ?_, ?_, h.arranged.roots, ?_⟩
  · rw [depth_append, h.depth_eq, depth_cons, weight_of_not hopens hcloses]
    rfl
  · rw [stillOpen_append_of_not hopens hcloses, h.stillOpen_eq]
    simp [Opened.separate]
  · rw [List.filter_append, ← h.emitted_eq, List.filter_cons_of_pos hnested]
    simp [Progress.emitted, hopened.emitted_separate hm]
  · rintro o' (_ | ⟨_, ho'⟩)
    · exact hopened.separate hm
    · exact h.arranged.opened o' (List.mem_cons_of_mem o ho')

/-- The innermost open block ends. -/
theorem Progress.Took.close (h : p.Took ms) (ho : p.opened = o :: outer) (hm : m.closes = true) :
    (Progress.add { p with opened := outer } (o.close m)).Took (ms ++ [m]) := by
  obtain ⟨roots, opened⟩ := p
  obtain rfl : opened = o :: outer := ho
  have hnested : isNested m = true := by
    rw [Marker.closes] at hm
    rw [isNested]
    revert hm
    cases m.directive.kind <;> decide
  have hopened := h.arranged.opened o (List.mem_cons_self ..)
  have hrest : Progress.Arranged ⟨roots, outer⟩ :=
    ⟨h.arranged.roots, fun o' ho' => h.arranged.opened o' (List.mem_cons_of_mem o ho')⟩
  refine ⟨?_, ?_, ?_, hrest.add (hopened.close hm)⟩
  · rw [depth_append, h.depth_eq, depth_cons, weight_of_closes hm, Progress.length_add]
    simp only [List.length_cons, depth_nil]
    omega
  · rw [stillOpen_append_of_closes hm, h.stillOpen_eq, Progress.starts_add]
    simp
  · rw [Progress.emitted_add, hopened.emitted_close, List.filter_append, ← h.emitted_eq,
      List.filter_cons_of_pos hnested]
    simp [Progress.emitted]

/-- A directive is taken up, if it has a block where it needs one. -/
theorem Progress.Took.exists_feed (h : p.Took ms) (hm : m.needsBlock = true → depth ms ≠ 0) :
    ∃ p', p.feed m = .ok p' ∧ p'.Took (ms ++ [m]) := by
  have hnonempty : m.needsBlock = true → ∃ o outer, p.opened = o :: outer := by
    intro hneeds
    refine List.exists_cons_of_ne_nil fun hopened => hm hneeds ?_
    rw [h.depth_eq, hopened]
    rfl
  unfold Progress.feed
  dsimp only
  split
  · next hkeyword => exact ⟨_, rfl, h.keyword hkeyword⟩
  next hkeyword =>
  split
  · next hstart => exact ⟨_, rfl, h.begin (by simp [Marker.opens, hstart, hkeyword])⟩
  next hstart =>
  split
  · next hsep =>
    obtain ⟨o, outer, ho⟩ := hnonempty (by simp [Marker.needsBlock, hsep])
    rw [ho]
    exact ⟨_, rfl, h.separate ho hsep⟩
  split
  · next hend =>
    obtain ⟨o, outer, ho⟩ := hnonempty (by simp [Marker.needsBlock, hend])
    rw [ho]
    exact ⟨_, rfl, h.close ho hend⟩
  next hsep hend =>
  have ho : m.opens = false := by simp [Marker.opens, hstart]
  have hc : m.closes = false := by simp [Marker.closes, hend]
  have hnested : isNested m = false := by
    rw [isNested]
    generalize m.directive.kind = kind at *
    cases kind <;> simp_all [Directive.Kind.isBlockStart, Directive.Kind.isSeparator,
      Directive.Kind.isBlockEnd]
  refine ⟨p, rfl, ?_, ?_, ?_, h.arranged⟩
  · rw [depth_append, h.depth_eq, depth_cons, weight_of_not ho hc]
    rfl
  · rw [stillOpen_append_of_not ho hc, h.stillOpen_eq]
  · rw [h.emitted_eq, List.filter_append, List.filter_cons_of_neg (by simp [hnested])]
    simp

/-- Without an open block, a directive that needs one is an error. -/
theorem Progress.Took.feed_eq_error (h : p.Took ms) (hm : m.needsBlock = true) (hd : depth ms = 0) :
    p.feed m = .error (.unbalanced m.directive.text) := by
  have hopened : p.opened = [] := by
    rw [h.depth_eq] at hd
    exact List.eq_nil_of_length_eq_zero (Int.ofNat_eq_zero.mp hd)
  have hkind : m.directive.kind ≠ .inlineKeyword ∧ m.directive.kind.isBlockStart = false := by
    rw [Marker.needsBlock] at hm
    revert hm
    cases m.directive.kind <;> decide
  unfold Progress.feed
  dsimp only
  rw [if_neg hkind.1, if_neg (by simp [hkind.2]), hopened]
  rw [Marker.needsBlock, Bool.or_eq_true] at hm
  split
  · rfl
  · next hsep => rw [if_pos (hm.resolve_left hsep)]

/-- The machine takes up directives as long as each has a block where it needs one. -/
theorem exists_took (h : Sheltered ms) :
    ∃ p, ms.foldlM Progress.feed ⟨[], []⟩ = .ok p ∧ p.Took ms := by
  induction ms using List.reverseRecOn with
  | nil => exact ⟨_, rfl, Progress.took_nil⟩
  | append_singleton ms m ih =>
    obtain ⟨hms, hm⟩ := sheltered_concat.mp h
    obtain ⟨p, hp, htook⟩ := ih hms
    obtain ⟨p', hp', htook'⟩ := htook.exists_feed hm
    refine ⟨p', ?_, htook'⟩
    rw [List.foldlM_append, hp]
    show (p.feed m >>= pure) = _
    rw [hp']
    rfl

/-! ## What is accepted -/

/-- The first directive without a block is the error. -/
theorem nest_of_first {u v : List Marker} (hu : Sheltered u) (hm : m.needsBlock = true)
    (hd : depth u = 0) : nest (u ++ m :: v) = .error (.unbalanced m.directive.text) := by
  obtain ⟨p, hp, htook⟩ := exists_took hu
  rw [nest, List.foldlM_append, hp]
  show Except.bind (List.foldlM Progress.feed p (m :: v)) _ = _
  rw [List.foldlM_cons, htook.feed_eq_error hm hd]
  rfl

/-- If blocks are still open, they are the error. -/
theorem nest_of_depth_ne_zero (h : Sheltered ms) (hd : depth ms ≠ 0) :
    nest ms = .error (.unclosed ((stillOpen ms).map (·.directive.text))) := by
  obtain ⟨p, hp, htook⟩ := exists_took h
  have hopened : ¬ p.opened.isEmpty = true := by
    rw [List.isEmpty_iff]
    intro hnil
    rw [htook.depth_eq, hnil] at hd
    exact hd rfl
  rw [nest, hp]
  show Progress.finish p = _
  rw [Progress.finish, if_neg hopened, htook.stillOpen_eq, List.map_map]
  rfl

/-- Otherwise there is a forest of blocks. -/
theorem exists_nest_eq (h : Sheltered ms) (hd : depth ms = 0) :
    ∃ B, nest ms = .ok B ∧ emitted B = ms.filter isNested ∧ Arranged .level B := by
  obtain ⟨p, hp, htook⟩ := exists_took h
  have hopened : p.opened = [] := by
    rw [htook.depth_eq] at hd
    exact List.eq_nil_of_length_eq_zero (Int.ofNat_eq_zero.mp hd)
  refine ⟨ofTrees p.roots.reverse, ?_, ?_, htook.arranged.roots⟩
  · rw [nest, hp]
    show Progress.finish p = _
    rw [Progress.finish, hopened]
    rfl
  · rw [← htook.emitted_eq, Progress.emitted, hopened]
    simp

end Building

/-- Whether a directive is taken up depends on how many blocks are open, not on which ones. -/
theorem Progress.exists_feed {p q p' : Progress} {m m' : Marker} (hlength : p.opened.length = q.opened.length)
    (hm : m.directive = m'.directive) (hp : p.feed m = .ok p') :
    ∃ q', q.feed m' = .ok q' ∧ p'.opened.length = q'.opened.length := by
  unfold Progress.feed at hp ⊢
  dsimp only at hp ⊢
  rw [← hm]
  split at hp
  · next hkeyword =>
    rw [if_pos hkeyword]
    cases hp
    exact ⟨_, rfl, by rw [Progress.length_add, Progress.length_add, hlength]⟩
  next hkeyword =>
  rw [if_neg hkeyword]
  split at hp
  · next hstart =>
    rw [if_pos hstart]
    cases hp
    exact ⟨_, rfl, congrArg (· + 1) hlength⟩
  next hstart =>
  rw [if_neg hstart]
  -- The innermost open block is needed now, so both machines have one.
  have hopened : ∀ {o outer}, p.opened = o :: outer →
      ∃ o' outer', q.opened = o' :: outer' ∧ outer.length = outer'.length := by
    intro o outer ho
    rw [ho] at hlength
    cases hq : q.opened with
    | nil => simp [hq] at hlength
    | cons o' outer' => exact ⟨o', outer', rfl, by simpa [hq] using hlength⟩
  split at hp
  · next hsep =>
    rw [if_pos hsep]
    split at hp
    · cases hp
    · next o outer ho =>
      obtain ⟨o', outer', hq, houter⟩ := hopened ho
      cases hp
      exact ⟨_, by rw [hq], congrArg (· + 1) houter⟩
  next hsep =>
  rw [if_neg hsep]
  split at hp
  · next hend =>
    rw [if_pos hend]
    split at hp
    · cases hp
    · next o outer ho =>
      obtain ⟨o', outer', hq, houter⟩ := hopened ho
      cases hp
      exact ⟨_, by rw [hq], by rw [Progress.length_add, Progress.length_add]; exact houter⟩
  next hend =>
  rw [if_neg hend]
  cases hp
  exact ⟨q, rfl, hlength⟩

/-- Whether directives can be nested does not depend on their text elements. -/
theorem exists_nest_of_directives {ms ms' : List Marker} {B : Forest Block}
    (h : ms.map Marker.directive = ms'.map Marker.directive) (hB : nest ms = .ok B) : ∃ B', nest ms' = .ok B' := by
  have key : ∀ p q : Progress, p.opened.length = q.opened.length →
      (ms.foldlM Progress.feed p).bind Progress.finish = .ok B →
      ∃ B', (ms'.foldlM Progress.feed q).bind Progress.finish = .ok B' := by
    clear hB
    induction ms generalizing ms' with
    | nil =>
      intro p q hpq hB
      obtain rfl : ms' = [] := by simpa using h.symm
      simp only [List.foldlM_nil, pure, Except.pure, Except.bind, Progress.finish] at hB ⊢
      split at hB
      · next hopened =>
        rw [List.isEmpty_iff_length_eq_zero, hpq, ← List.isEmpty_iff_length_eq_zero] at hopened
        exact ⟨_, if_pos hopened⟩
      · cases hB
    | cons m ms ih =>
      intro p q hpq hB
      cases ms' with
      | nil => cases h
      | cons m' ms' =>
        obtain ⟨hm, h⟩ := List.cons.inj h
        rw [List.foldlM_cons] at hB ⊢
        cases hp : p.feed m with
        | error e =>
          rw [hp] at hB
          cases hB
        | ok p' =>
          rw [hp] at hB
          obtain ⟨q', hq, hpq'⟩ := Progress.exists_feed hpq hm hp
          rw [hq]
          exact ih h p' q' hpq' hB
  exact key _ _ rfl hB
/-- Which directives are accepted, and what is made of them. They are accepted just if none that
separates or ends sections stands where no block is open, and no block is open in the end. Otherwise the
error is the first directive without a block, or, if there is none, the blocks that are still open. What
is built gives back the directives other than placeholders, with their text elements, and is arranged as
it ought to be. -/
theorem nest_accepts (ms : List Marker) :
    ((∃ B, nest ms = .ok B) ↔ Sheltered ms ∧ depth ms = 0) ∧
    (∀ u m v, ms = u ++ m :: v → Sheltered u → m.needsBlock = true → depth u = 0 →
      nest ms = .error (.unbalanced m.directive.text)) ∧
    (¬ Sheltered ms → ∃ u m v, ms = u ++ m :: v ∧ Sheltered u ∧ m.needsBlock = true ∧ depth u = 0) ∧
    (Sheltered ms → depth ms ≠ 0 →
      nest ms = .error (.unclosed ((stillOpen ms).map (·.directive.text)))) ∧
    ∀ B, nest ms = .ok B → emitted B = ms.filter isNested ∧ Arranged .level B := by
  have haccepted : ∀ B, nest ms = .ok B → Sheltered ms ∧ depth ms = 0 := by
    intro B hB
    by_contra hnot
    by_cases hms : Sheltered ms
    · rw [nest_of_depth_ne_zero hms fun hd => hnot ⟨hms, hd⟩] at hB
      cases hB
    · obtain ⟨u, m, v, rfl, hu, hm, hd⟩ := exists_first_of_not_sheltered hms
      rw [nest_of_first hu hm hd] at hB
      cases hB
  refine ⟨⟨fun ⟨B, hB⟩ => haccepted B hB, fun ⟨hms, hd⟩ => ?_⟩, ?_, exists_first_of_not_sheltered,
    nest_of_depth_ne_zero, fun B hB => ?_⟩
  · obtain ⟨B, hB, -⟩ := exists_nest_eq hms hd
    exact ⟨B, hB⟩
  · rintro u m v rfl hu hm hd
    exact nest_of_first hu hm hd
  · obtain ⟨hms, hd⟩ := haccepted B hB
    obtain ⟨B', hB', h⟩ := exists_nest_eq hms hd
    rw [hB] at hB'
    cases hB'
    exact h

/-- Markers for the directives in a text. -/
def markersOf (text : String) : List Marker :=
  (Directive.findAll text).mapIdx fun i d => ⟨⟨i⟩, d⟩

theorem nest_accepts_markersOf :
    (∃ B, nest (markersOf "{{#A}}{{x}}{{?y}}{{:}}{{:br}}{{/}}{{:s:}}{{/A}}") = .ok B ∧
      emitted B = (markersOf "{{#A}}{{x}}{{?y}}{{:}}{{:br}}{{/}}{{:s:}}{{/A}}").filter isNested) ∧
    nest (markersOf "{{#A}}{{/A}}{{:}}{{/}}") = .error (.unbalanced "{{:}}") ∧
    nest (markersOf "{{#A}}{{?b}}{{/}}{{?c}}{{:}}") = .error (.unclosed ["{{#A}}", "{{?c}}"]) := by
  refine ⟨?_, ?_, ?_⟩
  · obtain ⟨B, hB⟩ := (nest_accepts (markersOf "{{#A}}{{x}}{{?y}}{{:}}{{:br}}{{/}}{{:s:}}{{/A}}")).1.mpr
      (by decide +kernel)
    exact ⟨B, hB, ((nest_accepts _).2.2.2.2 B hB).1⟩
  · have h := (nest_accepts (markersOf "{{#A}}{{/A}}{{:}}{{/}}")).2.1 (markersOf "{{#A}}{{/A}}")
      ⟨⟨2⟩, (Directive.findAll "{{#A}}{{/A}}{{:}}{{/}}")[2]!⟩
      [⟨⟨3⟩, (Directive.findAll "{{#A}}{{/A}}{{:}}{{/}}")[3]!⟩]
      (by decide +kernel) (by decide +kernel) (by decide +kernel) (by decide +kernel)
    rw [h]
    decide +kernel
  · have h := (nest_accepts (markersOf "{{#A}}{{?b}}{{/}}{{?c}}{{:}}")).2.2.2.1 (by decide +kernel)
      (by decide +kernel)
    rw [h]
    decide +kernel

end Block

end WordTemplate
