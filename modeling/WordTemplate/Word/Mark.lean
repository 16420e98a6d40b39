import WordTemplate.Directive.Kind
import WordTemplate.Word.Names
import WordTemplate.Xml.Edit

/-!
# Marks and insertion points

Two notes made on elements in the course of processing. A text that is a directive carries a mark
with the kind of the directive. The boundaries of a block carry insertion points: an anchor in
front of its content, and an end behind it.

An insertion point travels with the element, so the copy of a tree has the same insertion points
and they can be looked up inside the copy.
-/

namespace WordTemplate

namespace Xml.Label

/-- The kind of directive that this text is marked as. -/
def mark? (l : Label) : Option Directive.Kind :=
  (l.attribute? Word.markAttribute).bind Directive.Kind.ofName?

/-- Whether this is a directive that does not stand for a value, so that its text is removed. -/
def isDirectiveText (l : Label) : Bool :=
  l.mark?.any (· ≠ .placeholder)

/-- Whether this is the anchor of a block: an insertion point that is not at an end. -/
def isAnchor (l : Label) : Bool :=
  (l.attribute? Word.insertionAttribute).any fun id =>
    !Word.endMark.toList.isPrefixOf id.toList

end Xml.Label

/-- A boundary of the block with the given number. -/
structure InsertionPoint where
  kind : Directive.Kind
  block : Nat
  atEnd : Bool
  deriving DecidableEq, Repr

namespace InsertionPoint

/-- The name by which an element carries the insertion point. -/
def id (p : InsertionPoint) : String :=
  (if p.atEnd then Word.endMark else "") ++ p.kind.name ++ "_" ++ toString p.block

/-- Whether the element carries this insertion point. -/
def isOn (p : InsertionPoint) (l : Xml.Label) : Bool :=
  l.attribute? Word.insertionAttribute == some p.id

/-- The first node with this insertion point, at `scope` or below it. -/
def resolve? (p : InsertionPoint) (d : Xml.Document) (scope : Xml.NodeId) : Option Xml.NodeId :=
  ((d.treeAt scope).toList.find? fun node => p.isOn node.label).map Xml.Node.id

end InsertionPoint

namespace Xml.Document

variable (d : Document) (n : NodeId)

def mark? : Option Directive.Kind :=
  (d.label? n).bind Label.mark?

def isAnchor : Bool :=
  (d.label? n).any Label.isAnchor

/-- Makes `n` carry the insertion point. -/
def attach (p : InsertionPoint) : Document :=
  d.setAttribute n Word.insertionAttribute p.id

end Xml.Document

end WordTemplate
