import WordTemplate.Text.Alphanumeric
import WordTemplate.Text.Pieces

/-!
# Variables in settings

A text may refer to variables of the environment: `$NAME` stands for the value of a variable, and so
does a name in braces behind a dollar sign, where `:-` and a default may follow the name. The
default stands for a variable that is not set. Two dollar signs stand for one.

A name without braces is as long as possible; in braces it may have any character but a closing
brace. A dollar sign before anything else is an ordinary character. What is put in is not looked
through again.
-/

namespace WordTemplate.Config

inductive Segment where
  /-- A character that stands for itself. -/
  | character (c : Char)
  /-- The value of a variable, or a default. -/
  | reference (name : String) (default? : Option String)
  deriving DecidableEq, Repr

/-- The characters of names without braces. -/
def isNameCharacter (c : Char) : Bool :=
  c == '_' || Text.isAlphanumeric c

/-- The reference with this text between its braces. There has to be something in front of the
mark `:-`, or else it belongs to the name. -/
def Segment.ofBraces (inside : List Char) : Segment :=
  match Text.cut? [':', '-'] inside with
  | some (c :: name, fallback) =>
    .reference (String.ofList (c :: name)) (some (String.ofList fallback))
  | _ => .reference (String.ofList inside) none

def segments (s : List Char) : List Segment :=
  match s with
  | [] => []
  | '$' :: '$' :: rest => .character '$' :: segments rest
  | '$' :: '\x7b' :: rest =>
    match h : Text.cut? ['\x7d'] rest with
    | some (inside, after) =>
      have := Text.length_le_of_cut? h
      Segment.ofBraces inside :: segments after
    | none => .character '$' :: .character '\x7b' :: segments rest
  | '$' :: rest =>
    let name := rest.takeWhile isNameCharacter
    if name.isEmpty then .character '$' :: segments rest
    else
      have := (List.dropWhile_sublist isNameCharacter (l := rest)).length_le
      .reference (String.ofList name) none :: segments (rest.dropWhile isNameCharacter)
  | c :: rest => .character c :: segments rest
termination_by s.length

def Segment.variable? : Segment → Option String
  | character _ => none
  | reference name _ => some name

/-- The variables that a text refers to. -/
def variableNames (text : String) : List String :=
  (segments text.toList).filterMap Segment.variable?

/-- What a segment stands for; the error is the name of a variable that is not set. -/
def Segment.value (environment : String → Option String) : Segment → Except String String
  | character c => .ok c.toString
  | reference name default? =>
    match (environment name).or default? with
    | some value => .ok value
    | none => .error name

/-- The text with the values of its variables. The error is the name of the first variable that is
not set and has no default. -/
def expand (environment : String → Option String) (text : String) : Except String String :=
  ((segments text.toList).mapM (Segment.value environment)).map String.join

end WordTemplate.Config
