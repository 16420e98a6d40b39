import WordTemplate.Json.Writing
import WordTemplate.Text.Case
import WordTemplate.Text.Pieces

/-!
# Formatters

How a value of the model becomes text: as it stands, or by one of the formatters that a directive
can name.
-/

namespace WordTemplate

/-- The text of a value. A string is itself, and `null` is empty. -/
def Json.display : Json → String
  | .null => ""
  | .string s => s
  | value => value.text

namespace Binding

/-- A formatter with the name under which directives call it. -/
structure Formatter where
  name : String
  /-- The text of a value under some arguments; nothing if values of its type are not supported. -/
  format? : Json → List String → Option String

namespace Formatter

/-- Converts the case of the text of a value that is not an array or object. -/
def case (name : String) (convert : List Char → List Char) : Formatter where
  name := name
  format? value _ :=
    match value with
    | .array _ | .object _ => none
    | other => some (String.ofList (convert other.display.toList))

def upper : Formatter :=
  case "toupper" Text.toUpper

def lower : Formatter :=
  case "tolower" Text.toLower

/-- What `join` puts between the items unless an argument says otherwise. -/
def defaultSeparator : String := ", "

/-- The items of an array with the first argument between them. -/
def join : Formatter where
  name := "join"
  format? value arguments :=
    match value with
    | .array items =>
      some ((arguments.headD defaultSeparator).intercalate (items.map Json.display))
    | _ => none

/-- The formatters that are always there. -/
def builtin : List Formatter :=
  [upper, lower, join]

/-- The first formatter of that name. Capitals and small letters of ASCII are the same. -/
def find? (formatters : List Formatter) (name : String) : Option Formatter :=
  formatters.find? fun f => f.name.toLower == name.toLower

end Formatter

end Binding

end WordTemplate
