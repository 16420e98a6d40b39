import Mathlib.Data.List.Infix
import WordTemplate.Proofs.Directive.Finding

/-!
# Arguments of formatters

An argument in quotes may hold any character but its quote and braces, so commas and parentheses among them.
The quotes do not belong to the argument that is read. The blanks around them do: they are characters outside
of quotes like any others, and an argument of which a part is quoted is not trimmed.

* `splitArguments_written`: a list of quoted arguments is read argument by argument.
* `parse?_written`: what the directive says in which they stand.
* `blank_before_quote_is_read`: a blank between a comma and a quote becomes part of the argument.
-/

namespace WordTemplate

/-- A text is cut at a character that is not in front of it. -/
theorem Text.cut?_of_not_mem {mark : Char} {s : List Char} (rest : List Char) (h : mark ∉ s) :
    cut? [mark] (s ++ mark :: rest) = some (s, rest) := by
  have hinfix : ¬ [mark] <:+: s ++ [mark].dropLast := by
    rwa [List.dropLast_singleton, List.append_nil, List.singleton_infix_iff]
  exact cut?_append rest (by simp) hinfix

namespace Directive

/-! ## Quoted arguments -/

/-- An argument in quotes, with blanks in front of and behind them. -/
structure QuotedArgument where
  before : List Char
  quote : Char
  text : List Char
  after : List Char
  quote_eq : quote = '"' ∨ quote = '\''
  quote_not_mem : quote ∉ text
  noBrace : ∀ c ∈ text, isBrace c = false
  blank : ∀ c ∈ before ++ after, Text.isBlank c = true

namespace QuotedArgument

/-- How the argument is written. -/
def written (a : QuotedArgument) : List Char :=
  a.before ++ a.quote :: (a.text ++ a.quote :: a.after)

/-- What is read of it. -/
def read (a : QuotedArgument) : List Char :=
  a.before ++ a.text ++ a.after

end QuotedArgument

/-- Arguments with commas between them. -/
def writeArguments (arguments : List QuotedArgument) : List Char :=
  Text.joinWith [','] (arguments.map QuotedArgument.written)

section Split

variable {argument s : List Char} {quoted : Bool} {q c : Char}

/-- Outside of quotes characters are added to the argument. -/
theorem splitArguments_blanks (rest : List Char) (h : ∀ c ∈ s, Text.isBlank c = true) :
    splitArguments argument quoted none (s ++ rest) = splitArguments (argument ++ s) quoted none rest := by
  induction s generalizing argument with
  | nil => rw [List.nil_append, List.append_nil]
  | cons c s ih =>
    rw [List.forall_mem_cons] at h
    have hplain : ∀ p : Char, Text.isBlank p = false → c ≠ p := by
      rintro p hp rfl
      rw [h.1] at hp
      cases hp
    rw [List.cons_append, splitArguments]
    rw [if_neg (not_or.mpr ⟨hplain _ (by decide), hplain _ (by decide)⟩), if_neg (hplain _ (by decide)),
      ih h.2, List.append_assoc, List.singleton_append]

/-- In quotes all characters are added to the argument, up to the next quote of this sort. -/
theorem splitArguments_inQuotes (rest : List Char) (h : q ∉ s) :
    splitArguments argument quoted (some q) (s ++ q :: rest) =
      splitArguments (argument ++ s) quoted none rest := by
  induction s generalizing argument with
  | nil =>
    rw [List.nil_append, splitArguments]
    rw [if_pos rfl, List.append_nil]
  | cons c s ih =>
    rw [List.mem_cons, not_or] at h
    rw [List.cons_append, splitArguments]
    rw [if_neg (Ne.symm h.1), ih h.2, List.append_assoc, List.singleton_append]

theorem splitArguments_quote (rest : List Char) (h : q = '"' ∨ q = '\'') :
    splitArguments argument quoted none (q :: rest) = splitArguments argument true (some q) rest := by
  rw [splitArguments]
  rw [if_pos h]

/-- One argument is read. -/
theorem splitArguments_append_written (a : QuotedArgument) (rest : List Char) :
    splitArguments [] false none (a.written ++ rest) = splitArguments a.read true none rest := by
  obtain ⟨hbefore, hafter⟩ := List.forall_mem_append.mp a.blank
  rw [QuotedArgument.written, List.append_assoc, splitArguments_blanks _ hbefore, List.cons_append,
    splitArguments_quote _ a.quote_eq, List.append_assoc, List.cons_append,
    splitArguments_inQuotes _ a.quote_not_mem, splitArguments_blanks _ hafter]
  rfl

/-- All arguments of a list are read. -/
theorem splitArguments_written (arguments : List QuotedArgument) :
    splitArguments [] false none (writeArguments arguments) =
      arguments.map fun a => String.ofList a.read := by
  induction arguments with
  | nil => rfl
  | cons a others ih =>
    cases others with
    | nil =>
      have := splitArguments_append_written a []
      rw [List.append_nil] at this
      exact this
    | cons b others =>
      show splitArguments [] false none (a.written ++ [','] ++ writeArguments (b :: others)) = _
      rw [List.append_assoc, splitArguments_append_written, List.map_cons, ← ih]
      rfl

end Split

/-! ## Calls -/

/-- A path with a formatter and quoted arguments behind it. -/
structure FormatterCall where
  path : List Char
  formatter : List Char
  arguments : List QuotedArgument
  path_ne_nil : path ≠ []
  trim_path : Text.trim path = path
  path_noBrace : ∀ c ∈ path, isBrace c = false
  path_noColon : ':' ∉ path
  path_plain : ∀ c ∈ path.head?, c ∉ ['/', ':', '#', '?']
  formatter_ne_nil : formatter ≠ []
  trim_formatter : Text.trim formatter = formatter
  formatter_noBrace : ∀ c ∈ formatter, isBrace c = false
  formatter_noParenthesis : '(' ∉ formatter

namespace FormatterCall

variable (call : FormatterCall)

/-- The formatter with its arguments in parentheses. -/
def writtenCall : List Char :=
  call.formatter ++ '(' :: (writeArguments call.arguments ++ [')'])

/-- The text between the braces. -/
def written : List Char :=
  call.path ++ ':' :: call.writtenCall

theorem trim_writtenCall : Text.trim call.writtenCall = call.writtenCall := by
  refine Text.trim_eq_self_iff.mpr ⟨?_, ?_⟩
  · have hhead := (Text.trim_eq_self_iff.mp call.trim_formatter).1
    rwa [writtenCall, List.head?_append_of_ne_nil _ call.formatter_ne_nil]
  · rw [writtenCall, ← List.cons_append, ← List.append_assoc, List.getLast?_concat]
    rintro _ ⟨⟩
    decide

theorem trim_written : Text.trim call.written = call.written := by
  refine Text.trim_eq_self_iff.mpr ⟨?_, ?_⟩
  · have hhead := (Text.trim_eq_self_iff.mp call.trim_path).1
    rwa [written, List.head?_append_of_ne_nil _ call.path_ne_nil]
  · rw [written, writtenCall, ← List.cons_append, ← List.cons_append, ← List.append_assoc, ← List.append_assoc,
      List.getLast?_concat]
    rintro _ ⟨⟩
    decide

theorem noBrace_writeArguments (arguments : List QuotedArgument) :
    ∀ c ∈ writeArguments arguments, isBrace c = false := by
  have hblank : ∀ c, Text.isBlank c = true → isBrace c = false := by
    intro c hc
    by_contra hbrace
    rw [Bool.not_eq_false, isBrace, Bool.or_eq_true, beq_iff_eq, beq_iff_eq] at hbrace
    rcases hbrace with rfl | rfl <;> revert hc <;> decide
  have hwritten : ∀ a : QuotedArgument, ∀ c ∈ a.written, isBrace c = false := by
    intro a c hc
    obtain ⟨hbefore, hafter⟩ := List.forall_mem_append.mp a.blank
    have hquote : isBrace a.quote = false := by rcases a.quote_eq with h | h <;> rw [h] <;> decide
    simp only [QuotedArgument.written, List.mem_append, List.mem_cons] at hc
    rcases hc with hc | rfl | hc | rfl | hc
    · exact hblank c (hbefore c hc)
    · exact hquote
    · exact a.noBrace c hc
    · exact hquote
    · exact hblank c (hafter c hc)
  induction arguments with
  | nil => simp [writeArguments, Text.joinWith]
  | cons a others ih =>
    cases others with
    | nil => exact hwritten a
    | cons b others =>
      intro c hc
      change c ∈ a.written ++ [','] ++ writeArguments (b :: others) at hc
      simp only [List.mem_append, List.mem_singleton] at hc
      rcases hc with (hc | rfl) | hc
      · exact hwritten a c hc
      · decide
      · exact ih c hc

theorem noBrace_written : ∀ c ∈ call.written, isBrace c = false := by
  intro c hc
  simp only [written, writtenCall, List.mem_append, List.mem_cons, List.not_mem_nil, or_false] at hc
  rcases hc with hc | rfl | hc | rfl | hc | rfl
  · exact call.path_noBrace c hc
  · decide
  · exact call.formatter_noBrace c hc
  · decide
  · exact noBrace_writeArguments _ c hc
  · decide

/-- A text that begins with none of the characters of a kind is a path. -/
theorem classify_of_plain {body : List Char} (hplain : ∀ c ∈ body.head?, c ∉ ['/', ':', '#', '?'])
    (hne : body ≠ []) (hignore : body ≠ ['-', '-']) : classify body = (.placeholder, body) := by
  obtain ⟨c, cs, rfl⟩ := List.exists_cons_of_ne_nil hne
  have hc := hplain c rfl
  simp only [List.mem_cons, List.not_mem_nil, or_false, not_or] at hc
  unfold classify
  rw [if_neg hignore, if_neg (by simp [hc]), if_neg (by simp [hc]), if_neg (by simp [hc]), if_neg (by simp [hc])]
  split
  · next h => exact absurd (List.cons.inj h).1 hc.1
  · next h => exact absurd (List.cons.inj h).1 hc.2.1
  · next h => exact absurd (List.cons.inj h).1 hc.2.2.1
  · next h => exact absurd (List.cons.inj h).1 hc.2.2.2
  · rfl

theorem classify_written : classify call.written = (.placeholder, call.written) := by
  refine classify_of_plain ?_ (List.append_ne_nil_of_left_ne_nil call.path_ne_nil _) fun h => ?_
  · rw [written, List.head?_append_of_ne_nil _ call.path_ne_nil]
    exact call.path_plain
  · have hcolon : ':' ∈ call.written := List.mem_append_right _ (List.mem_cons_self ..)
    rw [h] at hcolon
    revert hcolon
    decide

theorem splitCall_writtenCall : splitCall call.writtenCall =
    (call.formatter, call.arguments.map fun a => String.ofList a.read) := by
  rw [splitCall, writtenCall, Text.cut?_of_not_mem _ call.formatter_noParenthesis]
  simp only [Text.dropTail?_append, Option.getD_some, call.trim_formatter, splitArguments_written]

theorem splitFormatter_written : splitFormatter call.written =
    (String.ofList call.path, some (String.ofList call.formatter),
      call.arguments.map fun a => String.ofList a.read) := by
  have hformatter : call.formatter.isEmpty = false := by simpa using call.formatter_ne_nil
  rw [splitFormatter, written, Text.cut?_of_not_mem _ call.path_noColon]
  simp only [call.trim_writtenCall, call.splitCall_writtenCall, call.trim_path, hformatter, Bool.false_eq_true,
    if_false]

/-- A variable with a formatter is read as it is written. Each argument is read with the blanks around its
quotes, so arguments without any are read exactly. -/
theorem parse?_written : parse? (String.ofList (enclose call.written)) =
    some { kind := .placeholder
           position := 0
           text := String.ofList (enclose call.written)
           expression := String.ofList call.path
           formatter := some (String.ofList call.formatter)
           arguments := call.arguments.map fun a => String.ofList a.read } := by
  refine parse?_eq_some_iff.mpr ⟨call.written, ?_, ?_⟩
  · rw [String.toList_ofList, occurrence?_eq_some_iff, List.append_nil]
    exact ⟨call.noBrace_written, rfl⟩
  · have hne : call.written.isEmpty = false := by
      simp [written, call.path_ne_nil]
    simp only [ofBody?, call.trim_written, hne, Bool.false_eq_true, if_false, call.classify_written,
      call.splitFormatter_written]

end FormatterCall

/-- A blank between a comma and a quote becomes part of the argument. -/
theorem blank_before_quote_is_read :
    (parse? "\x7b\x7ba:f(\"x\", \"y\")\x7d\x7d").map (·.arguments) = some ["x", " y"] := by
  cbv

end Directive

end WordTemplate
