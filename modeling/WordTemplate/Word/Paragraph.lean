import WordTemplate.Text.Blank
import WordTemplate.Word.Mark

/-!
# Paragraphs and runs

When a paragraph holds nothing that a reader would see, and taking away the last content of a run.
-/

namespace WordTemplate

namespace Word

open Xml

/--
Whether a node shows nothing: blank text, the text of a directive, formatting, or a run for which
`blankRun` says so. Anchors are not blank, so that their paragraph stays until the block is dealt
with.
-/
def isBlankNode (blankRun : Forest Node → Bool) (label : Label) (children : Forest Node) : Bool :=
  match label with
  | .text content => Text.isBlankText content
  | .element tag =>
    if isProperty tag.name then true
    else if label.isAnchor then false
    else if tag.name = Word.text then
      label.isDirectiveText || Text.isBlankText (innerText (labels children))
    else tag.name == Word.run && blankRun children

/-- Whether all the trees of a forest show nothing. -/
def allBlank (blankRun : Forest Node → Bool) : Forest Node → Bool
  | .nil => true
  | .cons node children rest =>
    isBlankNode blankRun node.label children && allBlank blankRun rest

/-- Whether the children of a paragraph show nothing. In a run, a run is not blank. -/
def isBlankParagraph (children : Forest Node) : Bool :=
  allBlank (allBlank fun _ => false) children

end Word

namespace Xml.Document

variable (d : Document)

/-- Whether a paragraph shows nothing. -/
def isParagraphEmpty (paragraph : NodeId) : Bool :=
  Word.isBlankParagraph (d.treeAt paragraph).firstChildren

/-- Whether a paragraph is the only one in a table cell. -/
def isOnlyParagraphOfCell (paragraph : NodeId) : Bool :=
  match d.parent? paragraph with
  | some cell =>
    d.isNamed cell Word.cell &&
      (d.elementChildren cell).countP (d.isNamed · Word.paragraph) == 1
  | none => false

/-- Takes out a paragraph that shows nothing, unless a cell would be left without one. -/
def detachEmptyParagraph (paragraph : NodeId) : Document :=
  if d.isParagraphEmpty paragraph && !d.isOnlyParagraphOfCell paragraph then d.detach paragraph
  else d

/-- Takes out `n`, and the run it was in if the run has no content any more. -/
def detachFromRun (n : NodeId) : Document :=
  let out := d.detach n
  match d.parent? n with
  | some run => if out.isNamed run Word.run && !out.hasContent run then out.detach run else out
  | none => out

end Xml.Document

end WordTemplate
