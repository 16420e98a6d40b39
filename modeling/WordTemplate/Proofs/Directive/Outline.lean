import WordTemplate.Directive.Scan
import WordTemplate.Forest

/-!
# Outlines of texts

A text is a list of tokens: the characters outside of all directives, and the directives. Its outline
is the forest of what it is made of: characters, values, keywords, and blocks with their passages. A
passage is a section of a block.

`Spells` is the grammar of outlines.
-/

namespace WordTemplate

open Forest

/-! ## Tokens -/

/-- A character outside of all directives, or a directive. -/
inductive Token where
  | char (c : Char)
  | directive (d : Directive)
  deriving DecidableEq

/-- The tokens of a text that begins at `position` and has the given directives. -/
def tokensFrom (position : Nat) (s : List Char) : List Directive → List Token
  | [] => s.map .char
  | d :: ds =>
    (s.take (d.position - position)).map .char ++
      .directive d :: tokensFrom d.stop (s.drop (d.stop - position)) ds

/-- The tokens of a text. -/
def tokens (s : String) : List Token :=
  tokensFrom 0 s.toList (Directive.findAll s)

/-! ## Outlines -/

/-- A part of a template. Below a block stand its passages, and below a passage its parts. -/
inductive Part where
  | char (c : Char)
  | value (directive : Directive)
  | keyword (directive : Directive)
  | block (start : Directive)
  | passage (kind : Directive.Kind)
  deriving DecidableEq

/-- Characters in front of an outline. -/
def chars (s : List Char) (rest : Forest Part) : Forest Part :=
  s.foldr (fun c rest => cons (.char c) nil rest) rest

/-- Which texts an outline stands for. It is made of parts side by side, or of the passages of a
block from one of the given kind on. -/
inductive Spells : Option Directive.Kind → Forest Part → List Token → Prop where
  | nil : Spells none nil []
  | char (c : Char) {P : Forest Part} {ts : List Token} : Spells none P ts →
      Spells none (cons (.char c) nil P) (.char c :: ts)
  | value {d : Directive} {P : Forest Part} {ts : List Token} : d.kind = .placeholder →
      Spells none P ts → Spells none (cons (.value d) nil P) (.directive d :: ts)
  | keyword {d : Directive} {P : Forest Part} {ts : List Token} : d.kind = .inlineKeyword →
      Spells none P ts → Spells none (cons (.keyword d) nil P) (.directive d :: ts)
  | block {start stop : Directive} {PS P : Forest Part} {mid ts : List Token} :
      start.kind.isBlockStart = true → start.kind ≠ .inlineKeyword → stop.kind.isBlockEnd = true →
      Spells (some .content) PS mid → Spells none P ts →
      Spells none (cons (.block start) PS P) (.directive start :: (mid ++ .directive stop :: ts))
  | last {kind : Directive.Kind} {P : Forest Part} {ts : List Token} : Spells none P ts →
      Spells (some kind) (tree (.passage kind) P) ts
  | more {kind : Directive.Kind} {next : Directive} {P PS : Forest Part} {ts us : List Token} :
      Spells none P ts → next.kind.isSeparator = true → Spells (some next.kind) PS us →
      Spells (some kind) (cons (.passage kind) P PS) (ts ++ .directive next :: us)

theorem chars_append (s : List Char) (P Q : Forest Part) : chars s P ++ Q = chars s (P ++ Q) := by
  induction s with
  | nil => rfl
  | cons c s ih =>
    simp only [chars, List.foldr_cons, cons_append] at ih ⊢
    rw [ih]

theorem Spells.chars {P : Forest Part} {ts : List Token} (h : Spells none P ts) (s : List Char) :
    Spells none (chars s P) (s.map .char ++ ts) := by
  induction s with
  | nil => exact h
  | cons c s ih => exact .char c ih

theorem Spells.append {P Q : Forest Part} {ts us : List Token} (h : Spells none P ts)
    (h' : Spells none Q us) : Spells none (P ++ Q) (ts ++ us) := by
  generalize hk : (none : Option Directive.Kind) = kind at h
  induction h with
  | nil => exact h'
  | char c _ ih => exact .char c (ih hk)
  | value hd _ ih => exact .value hd (ih hk)
  | keyword hd _ ih => exact .keyword hd (ih hk)
  | block h₁ h₂ h₃ hm _ _ ih =>
    rw [cons_append, List.cons_append, List.append_assoc, List.cons_append]
    exact .block h₁ h₂ h₃ hm (ih hk)
  | last => cases hk
  | more => cases hk

end WordTemplate
