import WordTemplate.Block.Nesting
import WordTemplate.FlatText
import WordTemplate.Word.Paragraph

/-!
# Preparing a document

What is done before blocks are looked for: spell checking marks and bookmarks are taken out, because
they can stand in the middle of a directive, every directive gets a text element of its own, and
line breaks next to directives are removed if that is wanted.
-/

namespace WordTemplate

open Xml

namespace Xml.Document

/-- Takes out a node if it is a mark that can stand between the parts of a directive. -/
def removeMarkupAt (d : Document) (n : NodeId) : Document :=
  if d.isNamed n Word.proofError then d.detach n
  else if d.isNamed n Word.bookmarkStart || d.isNamed n Word.bookmarkEnd then d.detachFromRun n
  else d

/-- Takes out all such marks below `root`. -/
def removeMarkup (d : Document) (root : NodeId) : Document :=
  (d.descendants root).foldl removeMarkupAt d

/-- What is in the runs of a paragraph, in document order, without formatting. -/
def runItems (d : Document) (paragraph : NodeId) : List NodeId :=
  (d.descendants paragraph).filter fun n =>
    (d.parent? n).any (d.isNamed · Word.run) && !d.isProperty n

/-- The line breaks among `items` that come before any text. -/
def breaksBeforeText (d : Document) (items : List NodeId) : List NodeId :=
  (items.takeWhile (!d.isNamed · Word.text)).filter (d.isNamed · Word.lineBreak)

/-- Takes out the line breaks on both sides of a node, up to the nearest texts of its paragraph. -/
def trimLineBreaks (d : Document) (n : NodeId) : Document :=
  match d.ancestorNamed? n Word.paragraph with
  | none => d
  | some paragraph =>
    let items := d.runItems paragraph
    match items.idxOf? n with
    | none => d
    | some i =>
      let after := d.breaksBeforeText (items.drop (i + 1))
      let before := d.breaksBeforeText (items.take i).reverse
      (after ++ before).foldl detachFromRun d

end Xml.Document

/-- Gives a text element of its own to each of the directives, which are listed in the order of the
flattened text. -/
def isolateAll (flat : FlatText) (d : Document) : List Directive → List Marker × Document
  | [] => ([], d)
  | directive :: others =>
    match flat.isolate d directive.position directive.stop directive.kind with
    | none => isolateAll flat d others
    | some (node, flat, d) =>
      let (markers, d) := isolateAll flat d others
      (⟨node, directive⟩ :: markers, d)

/-- Finds the directives at and below `root` and gives a text element of its own to each. -/
def isolateDirectives (d : Document) (root : NodeId) : List Marker × Document :=
  let flat := FlatText.ofDocument d root
  isolateAll flat d (Directive.findAll flat.text)

end WordTemplate
