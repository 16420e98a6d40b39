import WordTemplate.Directive.Body

/-!
# Finding directives in text

A text is scanned from the left for double braces with no brace between them, and the scan goes on
behind each such occurrence. Between the start and the end of an ignored region nothing is a
directive.
-/

namespace WordTemplate.Directive

/-- The text between the braces, if `s` begins with an occurrence, and what follows it. -/
def occurrence? (s : List Char) : Option (List Char × List Char) :=
  (openingBraces.isPrefixOf? s).bind fun inner =>
    (closingBraces.isPrefixOf? (inner.dropWhile (!isBrace ·))).map fun rest =>
      (inner.takeWhile (!isBrace ·), rest)

/-- An occurrence is written as its text between braces. -/
theorem eq_append_of_occurrence? {s body rest : List Char}
    (h : occurrence? s = some (body, rest)) : s = enclose body ++ rest := by
  obtain ⟨inner, hi, h⟩ := Option.bind_eq_some_iff.mp h
  obtain ⟨rest', hr, he⟩ := Option.map_eq_some_iff.mp h
  simp only [Prod.mk.injEq] at he
  rw [Text.eq_append_of_isPrefixOf? hi, enclose, ← he.1, ← he.2, List.append_assoc,
    List.append_assoc, ← Text.eq_append_of_isPrefixOf? hr, List.takeWhile_append_dropWhile]

/-- All occurrences from left to right: their positions and the texts between the braces. -/
def occurrences (position : Nat) (s : List Char) : List (Nat × List Char) :=
  match s with
  | [] => []
  | c :: cs =>
    match _h : occurrence? (c :: cs) with
    | some (body, rest) => (position, body) :: occurrences (position + (enclose body).length) rest
    | none => occurrences (position + 1) cs
  termination_by s.length
  decreasing_by
    · rw [eq_append_of_occurrence? _h]
      simp only [enclose, openingBraces, List.length_append, List.length_cons]
      omega
    · simp

/-- The directives outside ignored regions, and those that begin and end the regions. `ignoring`
says whether the list begins in such a region. -/
def outsideIgnored (ignoring : Bool) : List Directive → List Directive
  | [] => []
  | d :: ds =>
    if ignoring then
      if d.kind = .ignoreEnd then d :: outsideIgnored false ds else outsideIgnored true ds
    else d :: outsideIgnored (d.kind = .ignoreStart) ds

/-- The directives in a text, in order. -/
def findAll (s : String) : List Directive :=
  outsideIgnored false
    ((occurrences 0 s.toList).filterMap fun (position, body) => ofBody? position body)

/-- The directive that the whole text is. -/
def parse? (s : String) : Option Directive :=
  match occurrence? s.toList with
  | some (body, []) => ofBody? 0 body
  | _ => none

end WordTemplate.Directive
