import WordTemplate.Block.Nesting
import WordTemplate.Word.Mark
import WordTemplate.Xml.Division

/-!
# Placing blocks in the document

For every block the document is divided so that the block's content becomes a stretch of siblings
below the nearest node that is above both of its directives. In front of the content comes an
anchor, a new element, and behind it the node with the directive that ends the block.

Where that node is a table or a row of one, the content is made of whole rows, between two new
empty rows. Blocks are placed before those within them, which find the document divided already.
-/

namespace WordTemplate

open Xml

namespace Block

/-- A block with its number and the siblings in front of and behind its content. -/
structure Placed where
  number : Nat
  block : Block
  first : NodeId
  last : NodeId
  deriving DecidableEq, Repr

/-- Puts empty rows in front of `first` and behind `last`. -/
def surroundRows (d : Document) (first last : NodeId) : (NodeId × NodeId) × Document :=
  let (before, made) := d.createElement Word.row
  let (after, made) := (made.insertBefore first before).createElement Word.row
  ((before, after), made.insertAfter last after)

/-- The first node from `n` on, among its siblings, that is not an anchor. -/
def pastAnchors? (d : Document) (siblings : List NodeId) : Option NodeId :=
  siblings.find? (!d.isAnchor ·)

/-- The siblings behind `n`. -/
def followingSiblings (d : Document) (n : NodeId) : List NodeId :=
  match d.index? n with
  | some i => (d.siblings n).drop (i + 1)
  | none => []

/--
Puts an anchor where the content of a block begins, after its start has been divided off. `parts`
are the parts of the child of `above` that held the start.

If nothing was divided off and the block ends elsewhere, the anchor goes behind that child, past the
anchors that blocks around this one have put there. Otherwise it goes in front of the last part.
-/
def insertAnchor (d : Document) (above : NodeId) (parts : List NodeId) (endsElsewhere : Bool) :
    NodeId × Document :=
  let (anchor, made) := d.createElement Word.paragraph
  match parts, endsElsewhere with
  | [single], true =>
    match pastAnchors? made (followingSiblings made single) with
    | some next => (anchor, made.insertBefore next anchor)
    | none => (anchor, made.append above anchor)
  | _, _ =>
    match parts.getLast? with
    | some tail => (anchor, made.insertBefore tail anchor)
    | none => (anchor, made)

/-- Divides the document at the two ends of a block; nothing if nothing is above both. -/
def place? (d : Document) (start stop : NodeId) : Option ((NodeId × NodeId) × Document) := do
  let above ← d.commonAncestor? start stop
  if d.isNamed above Word.row then
    let _ ← d.parent? above
    return surroundRows d above above
  let startChild ← d.childToward? above start
  let stopChild ← d.childToward? above stop
  if d.isNamed above Word.table then
    return surroundRows d startChild stopChild
  let (parts, divided) := d.divideAfter startChild start
  let (anchor, anchored) := insertAnchor divided above parts (startChild != stopChild)
  let (_, divided) :=
    if startChild = stopChild then ([], anchored) else anchored.divideBefore stopChild stop
  return ((anchor, stopChild), divided)

/-- The insertion point in front of the content. -/
def startPoint (kind : Directive.Kind) (number : Nat) : InsertionPoint :=
  ⟨kind, number, false⟩

/-- The insertion point behind the content. -/
def endPoint (kind : Directive.Kind) (number : Nat) : InsertionPoint :=
  ⟨kind, number, true⟩

/-- Places one block and notes its insertion points. -/
def placeOne (number : Nat) (b : Block) : EStateM Error Document Placed := do
  match place? (← get) b.start.node b.stop.node with
  | none => throw (.disjoint b.name)
  | some ((first, last), d) =>
    set ((d.attach first (startPoint b.kind number)).attach last (endPoint b.kind number))
    return ⟨number, b, first, last⟩

/-- Places all blocks, each before those below it. -/
def placeAll : Forest (Nat × Block) → EStateM Error Document (Forest Placed)
  | .nil => return .nil
  | .cons (number, b) inner rest => do
    let placed ← placeOne number b
    let inner ← placeAll inner
    let rest ← placeAll rest
    return .cons placed inner rest

end Block

end WordTemplate
