import WordTemplate.Binding.Model
import WordTemplate.Proofs.Directive.Arguments

/-!
# Comparing with a text in quotes

A condition that compares the value at a path with a text in quotes. The operators are looked for before the
quotes, `!=` first: so `!=` may stand in the quotes of an inequality, but not in those of an equality.

* `QuotedComparison.plan_written`: the value is compared with the text, whatever else the text looks like.
* `QuotedComparison.comparison?_of_operator`: an equality with `!=` in its text is read as an inequality.
-/

namespace WordTemplate

/-! ## Cutting and trimming -/

namespace Text

variable {mark s t : List Char} {x y : Char}

theorem cut?_eq_none (h : ¬ mark <:+: s) : cut? mark s = none :=
  Option.eq_none_iff_forall_ne_some.mpr fun (before, after) hcut =>
    h ⟨before, after, (eq_append_of_cut? hcut).symm⟩

/-- Two characters that stand one behind the other in a text of two parts are in one of the parts, or
between the two. -/
theorem infix_append_of_pair (h : [x, y] <:+: s ++ t) :
    [x, y] <:+: s ∨ [x, y] <:+: t ∨ (s.getLast? = some x ∧ t.head? = some y) := by
  induction s with
  | nil => exact .inr (.inl h)
  | cons c s ih =>
    rw [List.cons_append, List.infix_cons_iff, List.cons_prefix_cons] at h
    rcases h with ⟨rfl, h⟩ | h
    · cases s with
      | nil =>
        obtain ⟨r, rfl⟩ := h
        exact .inr (.inr ⟨rfl, rfl⟩)
      | cons d s =>
        rw [List.cons_append, List.cons_prefix_cons] at h
        obtain ⟨rfl, -⟩ := h
        exact .inl ⟨[], s, rfl⟩
    · rcases ih h with h | h | ⟨hlast, hhead⟩
      · exact .inl (h.trans (List.suffix_cons c s).isInfix)
      · exact .inr (.inl h)
      · exact .inr (.inr ⟨by simp [List.getLast?_cons, hlast], hhead⟩)

theorem not_infix_of_not_mem (h : x ∉ s) : ¬ [x, y] <:+: s :=
  fun hcontains => h (hcontains.subset (List.mem_cons_self ..))

theorem not_infix_concat_of_pair {z : Char} (h : ¬ [x, y] <:+: s) (hne : z ≠ y) : ¬ [x, y] <:+: s ++ [z] := by
  intro hcontains
  rcases infix_append_of_pair hcontains with hs | hz | ⟨-, hz⟩
  · exact h hs
  · exact absurd hz.length_le (by simp)
  · exact hne (Option.some.inj hz)

/-- A blank behind a trimmed text is taken off. -/
theorem trim_append_blank (hne : s ≠ []) (h : trim s = s) (hblank : isBlank x = true) : trim (s ++ [x]) = s := by
  obtain ⟨hhead, hlast⟩ := trim_eq_self_iff.mp h
  have hfront : (s ++ [x]).dropWhile isBlank = s ++ [x] := by
    rw [dropWhile_eq_self_iff, List.head?_append_of_ne_nil _ hne]
    exact hhead
  rw [trim, hfront, dropEndWhile, List.reverse_append, List.reverse_singleton, List.singleton_append,
    List.dropWhile_cons_of_pos hblank]
  exact dropEndWhile_eq_self_iff.mpr hlast

theorem trim_cons_blank (hblank : isBlank x = true) : trim (x :: s) = trim s := by
  rw [trim, List.dropWhile_cons_of_pos hblank, trim]

end Text

namespace Binding

open Directive (isBrace enclose)

/-- A path, an operator and a text in quotes. -/
structure QuotedComparison where
  path : List Char
  inequality : Bool
  quote : Char
  text : List Char
  path_ne_nil : path ≠ []
  trim_path : Text.trim path = path
  path_noBrace : ∀ c ∈ path, isBrace c = false
  path_noMark : path.head? ≠ some '!'
  path_noEquality : ¬ ['=', '='] <:+: path
  path_noInequality : ¬ ['!', '='] <:+: path
  quote_eq : quote = '\'' ∨ quote = '"'
  quote_not_mem : quote ∉ text
  text_noBrace : ∀ c ∈ text, isBrace c = false

namespace QuotedComparison

variable (c : QuotedComparison)

/-- The text in its quotes. -/
def literal : List Char :=
  c.quote :: (c.text ++ [c.quote])

def operator : List Char :=
  [if c.inequality then '!' else '=', '=']

/-- The condition, with blanks around the operator. -/
def condition : List Char :=
  c.path ++ ' ' :: (c.operator ++ ' ' :: c.literal)

/-- The condition, with an exclamation mark in front if it is negated. -/
def expression (negated : Bool) : List Char :=
  (if negated then ['!'] else []) ++ c.condition

/-- The text between the braces. -/
def written (negated : Bool) : List Char :=
  '?' :: c.expression negated

/-- Whether the condition is to hold for this value. -/
def isMet (negated : Bool) (value : Json) : Bool :=
  ((value.display == String.ofList c.text) != c.inequality) != negated

/-! ### The parts -/

theorem unquote?_literal : unquote? c.literal = some c.text := by
  have hcut : ∀ q, [q].isPrefixOf? c.literal =
      if q = c.quote then some (c.text ++ [c.quote]) else none := by
    intro q
    show (if q == c.quote then some (c.text ++ [c.quote]) else none) = _
    simp only [beq_iff_eq]
  rcases c.quote_eq with h | h <;>
    simp [unquote?, hcut, h, Text.dropTail?_append]

theorem isBlank_quote : Text.isBlank c.quote = false := by
  rcases c.quote_eq with h | h <;> rw [h] <;> decide

theorem trim_literal : Text.trim c.literal = c.literal := by
  refine Text.trim_eq_self_iff.mpr ⟨?_, ?_⟩
  · rintro _ ⟨⟩
    exact c.isBlank_quote
  · rw [literal, ← List.cons_append, List.getLast?_concat]
    rintro _ ⟨⟩
    exact c.isBlank_quote

theorem head?_condition : c.condition.head? = c.path.head? :=
  List.head?_append_of_ne_nil _ c.path_ne_nil

theorem getLast?_condition : c.condition.getLast? = some c.quote := by
  have : c.condition = (c.path ++ ' ' :: (c.operator ++ ' ' :: c.quote :: c.text)) ++ [c.quote] := by
    simp [condition, literal]
  rw [this, List.getLast?_concat]

theorem trim_condition : Text.trim c.condition = c.condition := by
  refine Text.trim_eq_self_iff.mpr ⟨?_, ?_⟩
  · rw [c.head?_condition]
    exact (Text.trim_eq_self_iff.mp c.trim_path).1
  · rw [c.getLast?_condition]
    rintro _ ⟨⟩
    exact c.isBlank_quote

/-- Something that is not blank may stand in front of the condition. -/
theorem trim_cons_append {x : Char} (s : List Char) (hx : Text.isBlank x = false) :
    Text.trim (x :: (s ++ c.condition)) = x :: (s ++ c.condition) := by
  refine Text.trim_eq_self_iff.mpr ⟨?_, ?_⟩
  · rintro _ ⟨⟩
    exact hx
  · rw [← List.cons_append, List.getLast?_append_of_ne_nil _ (by simp [condition]), c.getLast?_condition]
    rintro _ ⟨⟩
    exact c.isBlank_quote

theorem trim_expression (negated : Bool) : Text.trim (c.expression negated) = c.expression negated := by
  cases negated with
  | false => exact c.trim_condition
  | true => exact c.trim_cons_append [] (by decide)

/-- Only an exclamation mark in front is taken off. -/
theorem splitNegations_expression (negated : Bool) :
    splitNegations (c.expression negated) = (negated, c.condition) := by
  have hplain : splitNegations c.condition = (false, c.condition) := by
    obtain ⟨a, as, ha⟩ := List.exists_cons_of_ne_nil (l := c.condition) (by simp [condition])
    have hhead : c.path.head? = some a := by rw [← c.head?_condition, ha]; rfl
    have hblank := (Text.trim_eq_self_iff.mp c.trim_path).1 a hhead
    have hmark : a ≠ '!' := fun h => c.path_noMark (h ▸ hhead)
    rw [ha, splitNegations, if_neg (by simp [hblank]), if_neg hmark]
  cases negated with
  | false => exact hplain
  | true =>
    show splitNegations ('!' :: c.condition) = _
    rw [splitNegations, if_neg (by decide), if_pos rfl, hplain]
    rfl

/-! ### The operator -/

/-- No operator stands in front of that of the comparison. -/
theorem cut?_operator : Text.cut? c.operator c.condition = some (c.path ++ [' '], ' ' :: c.literal) := by
  have hpath : ¬ c.operator <:+: c.path := by
    rw [operator]
    split
    · exact c.path_noInequality
    · exact c.path_noEquality
  have hnone : ¬ c.operator <:+: (c.path ++ [' ']) ++ c.operator.dropLast := by
    intro h
    rcases Text.infix_append_of_pair h with h | h | ⟨h, -⟩
    · exact Text.not_infix_concat_of_pair hpath (by decide) h
    · exact absurd h.length_le (by simp [operator])
    · rw [List.getLast?_concat] at h
      split at h <;> simp at h
  have hcut := Text.cut?_append (' ' :: c.literal) (by simp [operator]) hnone
  rwa [List.append_assoc, List.singleton_append] at hcut

/-- Up to the text of an equality there is no `!=`. -/
theorem not_infix_front {s : List Char} (h : ¬ ['!', '='] <:+: s) :
    ¬ ['!', '='] <:+: c.path ++ ([' ', '=', '=', ' ', c.quote] ++ s) := by
  have hquote : c.quote ≠ '!' := by rcases c.quote_eq with h | h <;> rw [h] <;> decide
  intro hcontains
  rcases Text.infix_append_of_pair hcontains with hpath | hrest | ⟨-, hblank⟩
  · exact c.path_noInequality hpath
  · rcases Text.infix_append_of_pair hrest with hmid | hs | ⟨hlast, -⟩
    · exact Text.not_infix_of_not_mem (by simp [hquote.symm]) hmid
    · exact h hs
    · exact hquote (by simpa using hlast)
  · simp at hblank

theorem condition_of_equality (hkind : c.inequality = false) :
    c.condition = c.path ++ ([' ', '=', '=', ' ', c.quote] ++ (c.text ++ [c.quote])) := by
  simp [condition, operator, literal, hkind]

theorem comparison?_condition (hclear : c.inequality = false → ¬ ['!', '='] <:+: c.text) :
    comparison? c.condition = some (c.inequality, c.path ++ [' '], ' ' :: c.literal) := by
  have hcut := c.cut?_operator
  rw [comparison?]
  cases hkind : c.inequality with
  | true =>
    rw [operator, hkind] at hcut
    rw [show Text.cut? ['!', '='] c.condition = _ from hcut]
  | false =>
    rw [operator, hkind] at hcut
    have hquote : c.quote ≠ '=' := by rcases c.quote_eq with h | h <;> rw [h] <;> decide
    have hnone : Text.cut? ['!', '='] c.condition = none := by
      rw [c.condition_of_equality hkind]
      exact Text.cut?_eq_none (c.not_infix_front (Text.not_infix_concat_of_pair (hclear hkind) hquote))
    rw [hnone, show Text.cut? ['=', '='] c.condition = _ from hcut]
    rfl

/-- An equality with `!=` in its text is read as an inequality. Its left side ends in the text. -/
theorem comparison?_of_operator {s t : List Char} (hkind : c.inequality = false)
    (htext : c.text = s ++ '!' :: '=' :: t) (hs : ¬ ['!', '='] <:+: s) :
    comparison? c.condition =
      some (true, c.path ++ ([' ', '=', '=', ' ', c.quote] ++ s), t ++ [c.quote]) := by
  have hnone : ¬ ['!', '='] <:+: (c.path ++ ([' ', '=', '=', ' ', c.quote] ++ s)) ++ ['!', '='].dropLast :=
    Text.not_infix_concat_of_pair (c.not_infix_front hs) (by decide)
  have hcut := Text.cut?_append (t ++ [c.quote]) (by simp) hnone
  have hcondition : c.condition =
      (c.path ++ ([' ', '=', '=', ' ', c.quote] ++ s)) ++ (['!', '='] ++ (t ++ [c.quote])) := by
    simp [c.condition_of_equality hkind, htext]
  rw [comparison?, hcondition, hcut]

/-! ### The answer -/

variable {scopes : Scopes} {value : Json}

theorem resolve_path (h : scopes.lookup? c.path = some value) :
    resolve scopes (c.path ++ [' ']) = .ok value := by
  have hlookup : scopes.lookup? (c.path ++ [' ']) = scopes.lookup? c.path := by
    rw [Scopes.lookup?, Scopes.lookup?, Text.trim_append_blank c.path_ne_nil c.trim_path (by decide),
      c.trim_path]
  rw [resolve, hlookup, h]

theorem evaluate_condition (negated : Bool) (h : scopes.lookup? c.path = some value)
    (hclear : c.inequality = false → ¬ ['!', '='] <:+: c.text) :
    evaluate scopes (String.ofList (c.expression negated)) = .ok (c.isMet negated value) := by
  have hliteral : Text.trim (' ' :: c.literal) = c.literal := by
    rw [Text.trim_cons_blank (by decide), c.trim_literal]
  have hholds : holds scopes c.condition =
      .ok ((value.display == String.ofList c.text) != c.inequality) := by
    rw [holds, c.comparison?_condition hclear]
    simp only [c.resolve_path h, hliteral, equals, c.unquote?_literal]
    rfl
  rw [evaluate, String.toList_ofList, c.splitNegations_expression]
  show (holds scopes (Text.trim c.condition)).map _ = _
  rw [c.trim_condition, hholds]
  rfl

/-! ### The directive -/

theorem noBrace_written (negated : Bool) : ∀ x ∈ c.written negated, isBrace x = false := by
  have hquote : isBrace c.quote = false := by rcases c.quote_eq with h | h <;> rw [h] <;> decide
  intro x hx
  simp only [written, expression, condition, operator, literal, List.mem_cons, List.mem_append, List.not_mem_nil,
    or_false] at hx
  rcases hx with rfl | hx | hx | rfl | (rfl | rfl) | rfl | rfl | hx | rfl
  · decide
  · cases negated
    · cases hx
    · obtain rfl : x = '!' := by simpa using hx
      decide
  · exact c.path_noBrace x hx
  · decide
  · split <;> decide
  · decide
  · decide
  · exact hquote
  · exact c.text_noBrace x hx
  · exact hquote

theorem parse?_written (negated : Bool) :
    Directive.parse? (String.ofList (enclose (c.written negated))) =
      some { kind := .conditionStart
             position := 0
             text := String.ofList (enclose (c.written negated))
             expression := String.ofList (c.expression negated)
             formatter := none
             arguments := [] } := by
  refine Directive.parse?_eq_some_iff.mpr ⟨c.written negated, ?_, ?_⟩
  · rw [String.toList_ofList, Directive.occurrence?_eq_some_iff, List.append_nil]
    exact ⟨c.noBrace_written negated, rfl⟩
  · have htrim : Text.trim (c.written negated) = c.written negated := c.trim_cons_append _ (by decide)
    have hclassify : Directive.classify (c.written negated) = (.conditionStart, c.expression negated) := by
      simp [Directive.classify, written]
    have hne : (c.written negated).isEmpty = false := rfl
    simp only [Directive.ofBody?, htrim, hne, hclassify, c.trim_expression, Bool.false_eq_true, if_false]

/-- The branch that is taken is the one of a comparison with the text. -/
theorem plan_written (b : ModelBinding) (negated : Bool) (h : scopes.lookup? c.path = some value)
    (hclear : c.inequality = false → ¬ ['!', '='] <:+: c.text) :
    ∃ directive, Directive.parse? (String.ofList (enclose (c.written negated))) = some directive ∧
      b.plan scopes directive = .ok (.branch (some (if c.isMet negated value then 0 else 1))) := by
  refine ⟨_, c.parse?_written negated, ?_⟩
  simp only [ModelBinding.plan, c.evaluate_condition negated h hclear]
  rfl

end QuotedComparison

/-- A value is not found equal to its own text if `!=` is in it: the path ends in the text. -/
theorem equality_with_inequality_in_text :
    (Scopes.ofModel (.object [("a", .string "x!=y")])).lookup? ['a'] = some (.string "x!=y") ∧
      (Directive.parse? "\x7b\x7b?a == 'x!=y'\x7d\x7d").map
          (ModelBinding.plan {} (Scopes.ofModel (.object [("a", .string "x!=y")]))) =
        some (.error (.notFound "a == 'x")) := by
  exact ⟨rfl, by decide +kernel⟩

end Binding

end WordTemplate
