import WordTemplate.Text.Numeral
import WordTemplate.Word.Paragraph
import WordTemplate.Word.Text

/-!
# Finishing a document

What is done after all blocks have been expanded: insertion points, marks and the texts of
directives are taken away, drawings that were copied get numbers of their own, and every table cell
has a paragraph, as word processors demand.
-/

namespace WordTemplate.Xml.Document

/-! ## Insertion points -/

/-- Takes away an insertion point: with its element, unless it is the end of a block at an element
with content. -/
def removeInsertionPoint (d : Document) (n : NodeId) : Document :=
  match d.attribute? n Word.insertionAttribute with
  | none => d
  | some _ =>
    if d.isAnchor n || (d.children n).isEmpty then d.detach n
    else d.eraseAttribute n Word.insertionAttribute

/-- The nodes below `root` with an insertion point. -/
def insertionNodes (d : Document) (root : NodeId) : List NodeId :=
  ((d.nodesBelow root).filter (·.label.attribute? Word.insertionAttribute |>.isSome)).map Node.id

def removeInsertionPoints (d : Document) (root : NodeId) : Document :=
  (d.insertionNodes root).foldl removeInsertionPoint d

/-! ## Texts of directives -/

/-- Takes away the mark of a placeholder, or another directive with its text. The paragraph from
which a text was taken is added to `paragraphs`. -/
def removeDirectiveText (state : List NodeId × Document) (n : NodeId) : List NodeId × Document :=
  let (paragraphs, d) := state
  match d.mark? n with
  | none => state
  | some .placeholder => (paragraphs, d.eraseAttribute n Word.markAttribute)
  | some _ => (paragraphs ++ (d.ancestorNamed? n Word.paragraph).toList, d.detachFromRun n)

/-- Takes away all texts of directives. The paragraphs that they leave empty are removed if that is
wanted. -/
def removeDirectiveTexts (strip : Bool) (d : Document) (root : NodeId) : Document :=
  let (paragraphs, cleared) := (d.textElements root).foldl removeDirectiveText ([], d)
  if strip then paragraphs.eraseDups.foldl detachEmptyParagraph cleared else cleared

/-! ## Drawings -/

/-- The smallest number from `first` on that is not in `used`. -/
def firstUnused (used : List Nat) (first : Nat) : Nat :=
  ((List.range' first (used.length + 1)).find? (!used.contains ·)).getD first

/-- The drawings below `root` with their numbers; those without a number of 32 bits do not count. -/
def drawings (d : Document) (root : NodeId) : List (NodeId × Nat) :=
  (d.nodesBelow root).filterMap fun node =>
    if node.label.isNamed Word.drawing then
      (node.label.attribute? "id").bind fun id =>
        (Text.readNatural? 10 Text.bound32 id.toList).map fun number => (node.id, number)
    else none

/-- Gives each drawing in the list a number of its own. The first one with a number keeps it; the
others get, in order, the smallest numbers that are not in use. `seen` holds the numbers given so
far, and no number below `next` is free. -/
def renumber (used seen : List Nat) (next : Nat) (d : Document) : List (NodeId × Nat) → Document
  | [] => d
  | (n, number) :: others =>
    if seen.contains number then
      let free := firstUnused used next
      renumber (free :: used) (free :: seen) free (d.setAttribute n "id" (toString free)) others
    else renumber used (number :: seen) next d others

/-- Gives every drawing below `root` a number of its own. -/
def renumberDrawings (d : Document) (root : NodeId) : Document :=
  let found := d.drawings root
  renumber (found.map Prod.snd) [] 1 d found

/-! ## Table cells -/

/-- Puts an empty paragraph into a cell that has none. -/
def ensureParagraph (d : Document) (cell : NodeId) : Document :=
  if (d.elementChildren cell).any (d.isNamed · Word.paragraph) then d
  else
    let (p, made) := d.createElement Word.paragraph
    made.append cell p

def ensureCellParagraphs (d : Document) (root : NodeId) : Document :=
  let cells := (d.nodesBelow root).filter (·.label.isNamed Word.cell)
  (cells.map Node.id).foldl ensureParagraph d

/-! ## All of it -/

/-- Takes away what processing has left at and below `root`. -/
def finish (strip : Bool) (d : Document) (root : NodeId) : Document :=
  let d := d.removeInsertionPoints root
  let d := removeDirectiveTexts strip d root
  let d := d.renumberDrawings root
  d.ensureCellParagraphs root

end WordTemplate.Xml.Document
