import WordTemplate.Directive.Kind
import WordTemplate.Text.Blank
import WordTemplate.Text.Pieces

/-!
# Directives

A directive is a text between double braces. The text decides its kind:

| Text           | Kind                  |
|----------------|-----------------------|
| `path`         | variable              |
| `#path`        | collection start      |
| `:s:`          | collection separator  |
| `/path`        | collection end        |
| `?expression`  | condition start       |
| `:`            | condition else        |
| `/`            | condition end         |
| `:keyword`     | inline keyword        |

Two hyphens begin an ignored region, and a slash with two hyphens ends it.

Behind the path of a variable or a collection start a formatter may follow, after a colon, with
arguments in parentheses.
-/

namespace WordTemplate

/-- A directive and where it was found. -/
structure Directive where
  kind : Directive.Kind
  /-- The number of characters in front of it. -/
  position : Nat
  /-- The directive as it is written, with its braces. -/
  text : String
  /-- The path, condition or keyword. -/
  expression : String
  formatter : Option String
  arguments : List String
  deriving DecidableEq, Repr, Inhabited

namespace Directive

/-- The number of characters. -/
def length (d : Directive) : Nat :=
  d.text.length

/-- The position behind the directive. -/
def stop (d : Directive) : Nat :=
  d.position + d.length

def openingBraces : List Char := ['{', '{']

def closingBraces : List Char := ['}', '}']

def isBrace (c : Char) : Bool :=
  c == '{' || c == '}'

/-- The text of the directive with this text between its braces. -/
def enclose (body : List Char) : List Char :=
  openingBraces ++ body ++ closingBraces

/-! ## Formatters -/

/-- An argument is taken as it is if any part of it was quoted, else without blanks at its ends. -/
def finishArgument (quoted : Bool) (argument : List Char) : String :=
  String.ofList (if quoted then argument else Text.trim argument)

/--
The arguments in a list separated by commas. In quotes of either sort a comma is an ordinary
character, and the quotes do not belong to the argument.

`argument` is what has been read of the current one, `quoted` says whether a part of it was quoted,
and `quote` is the quote that is open.
-/
def splitArguments (argument : List Char) (quoted : Bool) (quote : Option Char) :
    List Char → List String
  | [] =>
    if quoted || !argument.all Text.isBlank then [finishArgument quoted argument] else []
  | c :: cs =>
    match quote with
    | some q =>
      if c = q then splitArguments argument quoted none cs
      else splitArguments (argument ++ [c]) quoted (some q) cs
    | none =>
      if c = '"' ∨ c = '\'' then splitArguments argument true (some c) cs
      else if c = ',' then finishArgument quoted argument :: splitArguments [] false none cs
      else splitArguments (argument ++ [c]) quoted none cs

/-- The name and the arguments of a call. The last closing parenthesis may be missing. -/
def splitCall (call : List Char) : List Char × List String :=
  match Text.cut? ['('] call with
  | some (name, rest) =>
    (Text.trim name, splitArguments [] false none ((Text.dropTail? [')'] rest).getD rest))
  | none => (call, [])

/-- Path, formatter and arguments. -/
def splitFormatter (s : List Char) : String × Option String × List String :=
  match Text.cut? [':'] s with
  | some (path, call) =>
    let (name, arguments) := splitCall (Text.trim call)
    (String.ofList (Text.trim path), if name.isEmpty then none else some (String.ofList name),
      arguments)
  | none => (String.ofList (Text.trim s), none, [])

/-! ## Kinds -/

/-- The kind of the directive with this text between its braces, and what the text says beyond
the kind. -/
def classify (body : List Char) : Kind × List Char :=
  if body = ['-', '-'] then (.ignoreStart, [])
  else if body = ['/', '-', '-'] then (.ignoreEnd, [])
  else if body = ['/'] then (.conditionEnd, [])
  else if body = [':'] then (.conditionElse, [])
  else if body = [':', 's', ':'] then (.collectionSeparator, [])
  else match body with
    | '/' :: path => (.collectionEnd, path)
    | ':' :: keyword => (.inlineKeyword, keyword)
    | '#' :: path => (.collectionStart, path)
    | '?' :: expression => (.conditionStart, expression)
    | path => (.placeholder, path)

/-- The directive with this text between its braces; a blank text is none. -/
def ofBody? (position : Nat) (body : List Char) : Option Directive :=
  let trimmed := Text.trim body
  if trimmed.isEmpty then none
  else
    let (kind, rest) := classify trimmed
    let text := String.ofList (enclose body)
    match kind with
    | .placeholder | .collectionStart =>
      let (expression, formatter, arguments) := splitFormatter rest
      some { kind, position, text, expression, formatter, arguments }
    | _ =>
      let expression := String.ofList (Text.trim rest)
      some { kind, position, text, expression, formatter := none, arguments := [] }

end Directive

end WordTemplate
