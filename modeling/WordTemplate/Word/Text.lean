import WordTemplate.Text.Blank
import WordTemplate.Text.Pieces
import WordTemplate.Word.Mark

/-!
# Texts of a document

The text elements below a node, and writing into them. Whatever is written, blanks at its ends
count. A value of several lines is written as several texts with breaks between them.
-/

namespace WordTemplate

/-- The lines of a value. A carriage return at the end of a line does not belong to it. -/
def Word.valueLines (value : String) : List String :=
  (Text.pieces '\n' value.toList).map fun line =>
    String.ofList (Text.dropEndWhile (· == '\r') line)

namespace Xml.Document

variable (d : Document)

/-- The text elements at and below `root`, in document order. -/
def textElements (root : NodeId) : List NodeId :=
  ((d.treeAt root).toList.filter (·.label.isNamed Word.text)).map Node.id

/-- The text elements at and below `root` that are marked as placeholders of values. -/
def placeholders (root : NodeId) : List NodeId :=
  (d.textElements root).filter fun n => d.mark? n == some .placeholder

/-- Writes `content` into a text element and makes its blanks count. -/
def writeText (n : NodeId) (content : String) : Document :=
  (d.setAttribute n Word.spaceAttribute "preserve").setText n content

/-- Makes a text element with this content. -/
def createTextElement (content : String) : NodeId × Document :=
  let (n, made) := d.createElement Word.text
  (n, made.writeText n content)

/-- Puts a break and a text with the content `line` behind `cursor`. The first result is the
text. -/
def insertLine (cursor : NodeId) (line : String) : NodeId × Document :=
  let (br, made) := d.createElement Word.lineBreak
  let (t, made) := (made.insertAfter cursor br).createTextElement line
  (t, made.insertAfter br t)

/-- Writes a value into a text element and takes its mark off. -/
def writeValue (n : NodeId) (value : String) : Document :=
  let unmarked := d.eraseAttribute n Word.markAttribute
  match Word.valueLines value with
  | [] => unmarked.writeText n ""
  | first :: others =>
    (others.foldl (fun (cursor, d) line => d.insertLine cursor line)
      (n, unmarked.writeText n first)).2

end Xml.Document

end WordTemplate
