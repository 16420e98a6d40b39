import WordTemplate.Word.Paragraph
import WordTemplate.Word.Text

/-!
# Flattened text

A word processor may cut a text anywhere into runs, so a directive can be spread over many text
elements. The flattened text of a document puts the contents of all text elements together and
remembers where each character comes from.

`isolate` moves a stretch of characters into a text element of its own. Afterwards the flattened
text has the same characters, in their new places.
-/

namespace WordTemplate

open Xml

/-- A character and where it is: its text element and the number of characters before it there. -/
structure FlatText.Entry where
  char : Char
  node : NodeId
  offset : Nat
  deriving DecidableEq, Repr

structure FlatText where
  entries : List FlatText.Entry
  deriving DecidableEq, Repr

namespace FlatText

/-- The entries of one text element. -/
def entriesOf (node : NodeId) (content : List Char) : List Entry :=
  content.mapIdx fun offset char => ⟨char, node, offset⟩

/-- The flattened text of what is at and below `root`. -/
def ofDocument (d : Document) (root : NodeId) : FlatText where
  entries := (d.textElements root).flatMap fun n => entriesOf n (d.innerText n).toList

variable (t : FlatText)

def text : String :=
  String.ofList (t.entries.map Entry.char)

def size : Nat :=
  t.entries.length

/-- The part of an isolation that concerns the map from characters to places. -/
structure Isolation where
  /-- The positions of the isolated characters: from `start` up to `stop`. -/
  start : Nat
  stop : Nat
  /-- The text element that receives the characters. -/
  target : NodeId
  /-- The text elements for what was before and after the characters in `target`. -/
  front : NodeId
  back : NodeId
  /-- How many characters of `target` were before its part after the isolated characters. -/
  cut : Nat
  /-- How many characters other text elements lose at their front. -/
  taken : NodeId → Nat

/-- The new place of the character at `position`. -/
def Isolation.place (i : Isolation) (position : Nat) (e : Entry) : Entry :=
  if i.start ≤ position ∧ position < i.stop then
    { e with node := i.target, offset := position - i.start }
  else if e.node = i.target then
    if position < i.start then { e with node := i.front }
    else { e with node := i.back, offset := e.offset - i.cut }
  else { e with offset := e.offset - i.taken e.node }

/-- Puts the text `content` next to a text element with `insert`. For an empty one nothing is made
and the element itself is the result. -/
def insertPart (insert : Document → NodeId → NodeId → Document) (d : Document) (target : NodeId)
    (content : List Char) : NodeId × Document :=
  if content.isEmpty then (target, d)
  else
    let (n, made) := d.createTextElement (String.ofList content)
    (n, insert made target n)

/-- Takes `count` characters from the front of a text element, and the element with them if they
are all it has. -/
def dropFront (d : Document) (n : NodeId) (count : Nat) : Document :=
  let left := (d.innerText n).toList.drop count
  if left.isEmpty then d.detachFromRun n else d.setText n (String.ofList left)

/--
Moves the characters from `start` up to `stop` into one text element and marks it with `kind`.

It is the element of the first of them. What was before and after them in that element goes to new
elements next to it, and other elements lose their part. Nothing is done for an empty stretch or
one that goes beyond the text.
-/
def isolate (d : Document) (start stop : Nat) (kind : Directive.Kind) :
    Option (NodeId × FlatText × Document) :=
  let covered := (t.entries.drop start).take (stop - start)
  match covered with
  | [] => none
  | first :: _ =>
    if t.size < stop then none
    else
      let target := first.node
      let content := (d.innerText target).toList
      let cut := ((covered.filter (·.node == target)).map (·.offset + 1)).getLastD 0
      let others := ((covered.map Entry.node).filter (· != target)).eraseDups
      let taken := fun n => covered.countP (·.node == n)
      let written := d.writeText target (String.ofList (covered.map Entry.char))
      let marked := written.setAttribute target Word.markAttribute kind.name
      let (front, parted) :=
        insertPart Document.insertBefore marked target (content.take first.offset)
      let (back, parted) := insertPart Document.insertAfter parted target (content.drop cut)
      let cleared := others.foldl (fun d n => dropFront d n (taken n)) parted
      let isolation : Isolation :=
        { start, stop, target, front, back, cut, taken := fun n =>
            if others.contains n then taken n else 0 }
      some (target, ⟨t.entries.mapIdx isolation.place⟩, cleared)

end FlatText

end WordTemplate
