import WordTemplate.Json.Value
import WordTemplate.Text.Blank
import WordTemplate.Text.Numeral
import WordTemplate.Text.Pieces

/-!
# Paths into a model

A path names members of objects and items of arrays, separated by dots. It is looked up from the
current item of the innermost collection outwards: the first scope that has the first name of the
path decides. A dot alone, or nothing, is the current item, and a dot in front of a path ties the
path to the current item.
-/

namespace WordTemplate.Binding

/-- The names of a path, without blanks around them; empty ones do not count. -/
def segments (path : List Char) : List (List Char) :=
  ((Text.pieces '.' path).map Text.trim).filter (!·.isEmpty)

/-- The member of an object with this name, or the item of an array with this number. -/
def step? (segment : List Char) : Json → Option Json
  | .object members => members.lookup (String.ofList segment)
  | .array items => (Text.readNatural? 10 Text.bound64 segment).bind fun i => items[i]?
  | _ => none

/-- The value at a path below a value. -/
def descend? (path : List Char) (value : Json) : Option Json :=
  (segments path).foldlM (fun current segment => step? segment current) value

/-- The items of the collections that have been entered, innermost first, and the model. -/
structure Scopes where
  items : List Json
  model : Json
  deriving BEq, Repr

namespace Scopes

/-- The scopes of a model in which nothing has been entered. -/
def ofModel (model : Json) : Scopes :=
  ⟨[], model⟩

variable (s : Scopes)

/-- All scopes, innermost first. -/
def all : List Json :=
  s.items ++ [s.model]

def current : Json :=
  s.items.headD s.model

def push (item : Json) : Scopes :=
  { s with items := item :: s.items }

/-- The scopes without the innermost item. The model always stays. -/
def pop : Scopes :=
  { s with items := s.items.tail }

@[simp] theorem pop_push (item : Json) : (s.push item).pop = s := rfl

/-- The value at a path. -/
def lookup? (path : List Char) : Option Json :=
  let path := Text.trim path
  if path.isEmpty || path == ['.'] then some s.current
  else match path with
    | '.' :: member => descend? member s.current
    | _ =>
      let head := path.takeWhile (· ≠ '.')
      (s.all.find? fun scope => (descend? head scope).isSome).bind (descend? path)

end Scopes

end WordTemplate.Binding
