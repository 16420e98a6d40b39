import WordTemplate.Proofs.Directive.Outline

/-!
# Reading outlines

The outline of a text is read from the end of the text, with a stack of the blocks whose ends have been met but
not yet their beginnings.

* `outline?_eq_some`: the outline of a text is read off its tokens, so a text has at most one.
-/

namespace WordTemplate

open Forest

/-- What has been read of a block from its end: the passages behind the one that is being read, and the parts behind
the block. -/
structure Tail where
  later : Forest Part
  after : Forest Part

/-- What has been read of a text from its end: the parts of the passage that is being read, and the blocks that it is
in, innermost first. -/
structure Suffix where
  parts : Forest Part
  blocks : List Tail

namespace Suffix

/-- One more part in front. -/
def put (s : Suffix) (part : Part) : Suffix :=
  { s with parts := cons part nil s.parts }

/-- Reads the token in front of what has been read. -/
def read (s : Suffix) : Token → Option Suffix
  | .char c => some (s.put (.char c))
  | .directive d =>
    if d.kind = .placeholder then some (s.put (.value d))
    else if d.kind = .inlineKeyword then some (s.put (.keyword d))
    else if d.kind.isBlockEnd then some ⟨nil, ⟨nil, s.parts⟩ :: s.blocks⟩
    else
      match s.blocks with
      | [] => none
      | b :: outer =>
        if d.kind.isSeparator then some ⟨nil, ⟨cons (.passage d.kind) s.parts b.later, b.after⟩ :: outer⟩
        else if d.kind.isBlockStart then
          some ⟨cons (.block d) (cons (.passage .content) s.parts b.later) b.after, outer⟩
        else none

/-- Reads tokens, the last one first. -/
def readAll : List Token → Option Suffix
  | [] => some ⟨nil, []⟩
  | t :: ts => (readAll ts).bind (·.read t)

end Suffix

/-- The outline of a text, if its blocks are nested as they ought to be. -/
def outline? (ts : List Token) : Option (Forest Part) :=
  (Suffix.readAll ts).bind fun s => if s.blocks.isEmpty then some s.parts else none

section Read

variable {s : Suffix} {d : Directive}

theorem Suffix.read_placeholder (h : d.kind = .placeholder) : s.read (.directive d) = some (s.put (.value d)) := by
  simp [read, h]

theorem Suffix.read_keyword (h : d.kind = .inlineKeyword) : s.read (.directive d) = some (s.put (.keyword d)) := by
  simp [read, h]

theorem Suffix.read_end (h : d.kind.isBlockEnd = true) :
    s.read (.directive d) = some ⟨nil, ⟨nil, s.parts⟩ :: s.blocks⟩ := by
  rw [read]
  revert h
  cases d.kind <;> simp [Directive.Kind.isBlockEnd]

theorem Suffix.read_separator {parts later after : Forest Part} {outer : List Tail}
    (h : d.kind.isSeparator = true) :
    Suffix.read ⟨parts, ⟨later, after⟩ :: outer⟩ (.directive d) =
      some ⟨nil, ⟨cons (.passage d.kind) parts later, after⟩ :: outer⟩ := by
  rw [read]
  revert h
  cases d.kind <;> simp [Directive.Kind.isSeparator, Directive.Kind.isBlockEnd]

theorem Suffix.read_start {parts later after : Forest Part} {outer : List Tail}
    (h : d.kind.isBlockStart = true) (hkeyword : d.kind ≠ .inlineKeyword) :
    Suffix.read ⟨parts, ⟨later, after⟩ :: outer⟩ (.directive d) =
      some ⟨cons (.block d) (cons (.passage .content) parts later) after, outer⟩ := by
  rw [read]
  revert h hkeyword
  cases d.kind <;> simp [Directive.Kind.isSeparator, Directive.Kind.isBlockEnd, Directive.Kind.isBlockStart]

end Read

/-- Reading what an outline stands for, with other tokens behind it. Parts come in front of those that have been read.
Passages are read at the end of a block, up to its first one. -/
theorem Suffix.readAll_append {kind : Option Directive.Kind} {P : Forest Part} {ts : List Token} (h : Spells kind P ts) :
    match kind with
    | none => ∀ us parts blocks, Suffix.readAll us = some ⟨parts, blocks⟩ →
        Suffix.readAll (ts ++ us) = some ⟨P ++ parts, blocks⟩
    | some first => ∀ us after blocks, Suffix.readAll us = some ⟨nil, ⟨nil, after⟩ :: blocks⟩ →
        ∃ parts later, P = cons (.passage first) parts later ∧
          Suffix.readAll (ts ++ us) = some ⟨parts, ⟨later, after⟩ :: blocks⟩ := by
  induction h with
  | nil => exact fun _ _ _ h => h
  | char c _ ih =>
    intro us parts blocks h
    rw [List.cons_append, Suffix.readAll, ih us parts blocks h]
    rfl
  | value hd _ ih =>
    intro us parts blocks h
    rw [List.cons_append, Suffix.readAll, ih us parts blocks h, Option.bind_some, Suffix.read_placeholder hd]
    rfl
  | keyword hd _ ih =>
    intro us parts blocks h
    rw [List.cons_append, Suffix.readAll, ih us parts blocks h, Option.bind_some, Suffix.read_keyword hd]
    rfl
  | @block start stop PS P mid ts hstart hkeyword hstop _ _ ihm ih =>
    intro us parts blocks h
    have hstop' : Suffix.readAll (.directive stop :: (ts ++ us)) = some ⟨nil, ⟨nil, P ++ parts⟩ :: blocks⟩ := by
      rw [Suffix.readAll, ih us parts blocks h, Option.bind_some, Suffix.read_end hstop]
    obtain ⟨first, later, rfl, hmid⟩ := ihm _ _ _ hstop'
    rw [List.cons_append, List.append_assoc, List.cons_append, Suffix.readAll, hmid, Option.bind_some,
      Suffix.read_start hstart hkeyword]
    rfl
  | @last kind P ts _ ih =>
    intro us after blocks h
    have := ih us _ _ h
    rw [append_nil] at this
    exact ⟨P, nil, rfl, this⟩
  | @more kind next P PS ts us _ hnext _ ih ihs =>
    intro vs after blocks h
    obtain ⟨parts, later, rfl, hus⟩ := ihs vs after blocks h
    have hnext' : Suffix.readAll (.directive next :: (us ++ vs)) =
        some ⟨nil, ⟨cons (.passage next.kind) parts later, after⟩ :: blocks⟩ := by
      rw [Suffix.readAll, hus, Option.bind_some, Suffix.read_separator hnext]
    have := ih _ _ _ hnext'
    rw [append_nil] at this
    refine ⟨P, _, rfl, ?_⟩
    rw [List.append_assoc, List.cons_append]
    exact this

/-- The outline of a text is read off its tokens. -/
theorem outline?_eq_some {P : Forest Part} {ts : List Token} (h : Spells none P ts) : outline? ts = some P := by
  have := Suffix.readAll_append h [] nil [] rfl
  rw [append_nil, List.append_nil] at this
  rw [outline?, this]
  rfl

end WordTemplate
