import WordTemplate.Text.Pieces

/-!
# Paths

Paths are texts with slashes between names. They are put together and taken apart as texts: nothing
is looked up, and `.` and `..` stay as they are.
-/

namespace WordTemplate.Host

abbrev Path := String

namespace Path

def isAbsolute (p : Path) : Bool :=
  ['/'].isPrefixOf p.toList

/-- The path `p` seen from `base`. An absolute path is the same from everywhere. -/
def join (base p : Path) : Path :=
  if isAbsolute p || base.isEmpty then p
  else if ['/'].isSuffixOf base.toList then base ++ p
  else base ++ "/" ++ p

/-- Takes off slashes at the end of a path that is backwards, and `.` that stand alone there. The
slash at the front stays. -/
def trimBackwards : List Char → List Char
  | ['/'] => ['/']
  | '/' :: rest => trimBackwards rest
  | '.' :: '/' :: rest => trimBackwards ('/' :: rest)
  | s => s

/-- The path without its last name: empty for a single name, and none for the root. -/
def parent? (p : Path) : Option Path :=
  let backwards := trimBackwards p.toList.reverse
  if backwards = [] ∨ backwards = ['/'] then none
  else some (String.ofList (trimBackwards (backwards.dropWhile (· ≠ '/'))).reverse)

/-- The directory in which the last name of a path is looked up, and that name. It may be `.` or
`..`, and the root has none. Slashes behind it do not count. -/
def divide (p : Path) : Path × String :=
  let backwards := p.toList.reverse.dropWhile (· == '/')
  let above := backwards.dropWhile (· != '/')
  (if above.isEmpty then "." else String.ofList above.reverse,
    String.ofList (backwards.takeWhile (· != '/')).reverse)

/-- The names of a path; empty ones do not count. -/
def names (p : Path) : List String :=
  ((Text.pieces '/' p.toList).filter (!·.isEmpty)).map String.ofList

/-- The absolute path with these names. -/
def ofNames (names : List String) : Path :=
  "/" ++ "/".intercalate names

end Path

end WordTemplate.Host
