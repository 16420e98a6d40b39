import WordTemplate.Binding.Driver
import WordTemplate.Binding.Formatter
import WordTemplate.Binding.Path
import WordTemplate.Decimal.Literal

/-!
# Conditions

A condition is a path whose value counts as true or not, or a comparison of the value at a path
with an operand: a text in quotes, one of the words `true`, `false` and `null`, a number, or another
path. Exclamation marks in front of either negate it.

The operators are looked for in the condition as it is written, also within quotes, `!=` first.
-/

namespace WordTemplate

/-- Whether a value counts as true: `null`, `false`, zero, and empty strings and arrays do not. -/
def Json.isTruthy : Json → Bool
  | .null => false
  | .bool b => b
  | .number n => n.toFloat != 0.0
  | .string s => !s.isEmpty
  | .array items => !items.isEmpty
  | .object _ => true

/-- The number that a value is, or that a string writes. -/
def Json.toFloat? : Json → Option Float
  | .number n => some n.toFloat
  | .string s => Decimal.readLiteral? (Text.trim s.toList)
  | _ => none

namespace Binding

/-- The text between two quotes of one sort that enclose all of `s`. -/
def unquote? (s : List Char) : Option (List Char) :=
  ['\'', '"'].findSome? fun quote =>
    ([quote].isPrefixOf? s).bind (Text.dropTail? [quote])

/-- The value at a path. -/
def resolve (scopes : Scopes) (path : List Char) : Except Error Json :=
  match scopes.lookup? path with
  | some value => .ok value
  | none => .error (.notFound (String.ofList (Text.trim path)))

/-- Whether a value equals an operand. -/
def equals (scopes : Scopes) (value : Json) (operand : List Char) : Except Error Bool :=
  match unquote? operand with
  | some quoted => .ok (value.display == String.ofList quoted)
  | none =>
    if operand = "true".toList then .ok (value == .bool true)
    else if operand = "false".toList then .ok (value == .bool false)
    else if operand = "null".toList then .ok (value == .null)
    else match Decimal.readLiteral? operand with
      | some x => .ok (value.toFloat?.any (· == x))
      | none => (resolve scopes operand).map fun other => other == value

/-- Takes exclamation marks and blanks off the front; the first result says whether the marks
negate. -/
def splitNegations : List Char → Bool × List Char
  | [] => (false, [])
  | c :: cs =>
    if Text.isBlank c then splitNegations cs
    else if c = '!' then
      let (negated, rest) := splitNegations cs
      (!negated, rest)
    else (false, c :: cs)

/-- The comparison in a condition: whether it is for inequality, and its two sides. -/
def comparison? (condition : List Char) : Option (Bool × List Char × List Char) :=
  match Text.cut? ['!', '='] condition with
  | some (left, right) => some (true, left, right)
  | none => (Text.cut? ['=', '='] condition).map fun (left, right) => (false, left, right)

/-- Whether a condition without exclamation marks in front holds. -/
def holds (scopes : Scopes) (condition : List Char) : Except Error Bool :=
  match comparison? condition with
  | some (negated, left, right) => do
    let value ← resolve scopes left
    let equal ← equals scopes value (Text.trim right)
    return equal != negated
  | none => (resolve scopes condition).map Json.isTruthy

/-- Whether a condition holds. -/
def evaluate (scopes : Scopes) (condition : String) : Except Error Bool :=
  let (negated, rest) := splitNegations condition.toList
  (holds scopes (Text.trim rest)).map fun result => result != negated

end Binding

end WordTemplate
