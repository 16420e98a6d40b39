import WordTemplate.Xml.Document

/-!
# Writing markup

The text of a document: elements without children are written as empty tags, and the characters
that would be read as markup are written as references.
-/

namespace WordTemplate.Xml

/-- The characters written as references in texts. -/
def escapedInText : Char → Option String
  | '&' => some "&amp;"
  | '<' => some "&lt;"
  | '>' => some "&gt;"
  | _ => none

/-- In attribute values quotes are written as references too. -/
def escapedInAttribute : Char → Option String
  | '"' => some "&quot;"
  | '\'' => some "&apos;"
  | c => escapedInText c

/-- `s` with the characters replaced that `escaped` names. -/
def escape (escaped : Char → Option String) (s : String) : String :=
  String.ofList (s.toList.flatMap fun c => ((escaped c).map String.toList).getD [c])

def Element.attributeMarkup (tag : Element) : String :=
  String.join (tag.attributes.map fun (key, value) =>
    " " ++ key ++ "=\"" ++ escape escapedInAttribute value ++ "\"")

/-- The markup of a list of trees. Nodes below a text are not written. -/
def markup : Forest Label → String
  | .nil => ""
  | .cons (.text content) _ rest => escape escapedInText content ++ markup rest
  | .cons (.element tag) children rest =>
    let opening := "<" ++ tag.name ++ tag.attributeMarkup
    let written :=
      match children with
      | .nil => opening ++ "/>"
      | .cons .. => opening ++ ">" ++ markup children ++ "</" ++ tag.name ++ ">"
    written ++ markup rest

/-- The declaration in front of a document, on a line of its own. -/
def declarationLine : String :=
  "<?xml version=\"1.0\" encoding=\"UTF-8\" standalone=\"yes\"?>\n"

/-- The markup of `n` and what is below it. -/
def Document.markupAt (d : Document) (n : NodeId) : String :=
  markup (d.labelsAt n)

/-- The document as text. -/
def Document.serialize (d : Document) : String :=
  (if d.declaration then declarationLine else "") ++ d.markupAt d.root

end WordTemplate.Xml
