/-!
# Errors of reading XML

Why a text is not accepted as a document, and the wording of each reason. Places in a tag are byte
offsets counted from the character after `<`.
-/

namespace WordTemplate.Xml

/-- Something that was begun and not finished, or begun wrongly. -/
inductive SyntaxError where
  | cdata
  | comment
  | doctype
  | unknownMarkup
  | instruction
  | declaration
  | tag
  /-- The text ends inside an attribute value with this quote. -/
  | attributeValue (quote : Char)
  deriving DecidableEq, Repr

/-- Parts that are complete but do not fit together. -/
inductive IllFormedError where
  | reference
  | doctypeName
  | endTagMismatch (expected found : String)
  | strayEndTag (found : String)
  deriving DecidableEq, Repr

/-- A fault among the attributes of a tag. -/
inductive AttributeError where
  | missingEquals (position : Nat)
  | duplicate (position previous : Nat)
  | missingValue (position : Nat)
  | unquotedValue (position : Nat)
  /-- The value's quote is not among the characters left in the tag. A quote inside a name can
  open what the lexer of tags takes for a value. -/
  | missingQuote (position : Nat) (quote : Char)
  deriving DecidableEq, Repr

inductive Error where
  | syntaxError (cause : SyntaxError)
  | illFormed (cause : IllFormedError)
  | badAttribute (cause : AttributeError)
  | missingRoot
  deriving DecidableEq, Repr

/-- "WHAT not closed: `END` not found before end of input". -/
private def notClosed (what terminator : String) : String :=
  what ++ " not closed: `" ++ terminator ++ "` not found before end of input"

def SyntaxError.message : SyntaxError → String
  | cdata => notClosed "CDATA" "]]>"
  | comment => notClosed "comment" "-->"
  | doctype => notClosed "DOCTYPE" ">"
  | unknownMarkup => "unknown or missed symbol in markup"
  | instruction => notClosed "processing instruction" "?>"
  | declaration => notClosed "XML declaration" "?>"
  | tag => notClosed "tag" ">"
  | attributeValue quote => notClosed "attribute value" quote.toString

def IllFormedError.message : IllFormedError → String
  | reference => notClosed "entity or character reference" ";"
  | doctypeName => "`<!DOCTYPE>` declaration does not contain a name of a document type"
  | endTagMismatch expected found =>
    "expected `</" ++ expected ++ ">`, but `</" ++ found ++ ">` was found"
  | strayEndTag found => "close tag `</" ++ found ++ ">` does not match any open tag"

def AttributeError.message : AttributeError → String
  | missingEquals p =>
    "position " ++ toString p ++ ": attribute key must be directly followed by `=` or space"
  | duplicate p q =>
    "position " ++ toString p ++ ": duplicated attribute, previous declaration at position " ++
      toString q
  | missingValue p => "position " ++ toString p ++ ": `=` must be followed by an attribute value"
  | unquotedValue p =>
    "position " ++ toString p ++ ": attribute value must be enclosed in `\"` or `'`"
  | missingQuote p quote =>
    "position " ++ toString p ++ ": missing closing quote `" ++ quote.toString ++
      "` in attribute value"

def Error.message : Error → String
  | syntaxError cause => "XML parse error: syntax error: " ++ cause.message
  | illFormed cause => "XML parse error: ill-formed document: " ++ cause.message
  | badAttribute cause => "XML attribute error: " ++ cause.message
  | missingRoot => "document has no root element"

end WordTemplate.Xml
