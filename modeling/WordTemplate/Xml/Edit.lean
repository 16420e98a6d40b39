import WordTemplate.Xml.Document

/-!
# Changing documents

Making nodes, relabelling them, taking trees out and putting them in. A tree that is taken out stays
with the document as a tree of its own, so it can be put in elsewhere.

Every move is one operation, `moveTo`: the tree is taken out first, and then put in at a target. If
the target went out with the tree (it is the moved node itself or below it), the moved node is below
itself from then on.
-/

namespace WordTemplate.Xml.Document

variable (d : Document)

/-! ## Labels -/

/-- Changes the label of `n`. -/
def relabel (n : NodeId) (change : Label → Label) : Document :=
  { d with
    trees := d.trees.replace (·.id == n) fun node children =>
      let node := { node with label := change node.label }
      .tree node <|
        if d.knots.contains n then children.replace (·.id == n) fun _ _ => .tree node .nil
        else children }

def setAttribute (n : NodeId) (key value : String) : Document :=
  d.relabel n (Label.setAttribute key value)

def eraseAttribute (n : NodeId) (key : String) : Document :=
  d.relabel n (Label.eraseAttribute key)

/-! ## New nodes -/

/-- Adds copies of the given trees, with new identifiers, as parts that are not in place. -/
def addCopies (copies : Forest Label) : Document :=
  { d with trees := identify d.fresh copies ++ d.trees, fresh := d.fresh + copies.size }

/-- The identifier that the next new node gets. -/
def freshId : NodeId :=
  ⟨d.fresh⟩

/-- Makes a node with this label; it has no parent yet. -/
def create (label : Label) : NodeId × Document :=
  (d.freshId, d.addCopies (.tree label .nil))

/-- Makes an element without attributes. -/
def createElement (name : String) : NodeId × Document :=
  d.create (.element ⟨name, []⟩)

def createText (content : String) : NodeId × Document :=
  d.create (.text content)

/-- Copies `n` with everything below it; the copy has no parent. -/
def copy (n : NodeId) : NodeId × Document :=
  (d.freshId, d.addCopies (d.labelsAt n))

/-! ## Taking out -/

/-- Takes a knot away from where it stands below itself. -/
def untie (knot : NodeId) : Document :=
  { d with
    trees := d.trees.replace (·.id == knot) fun node children =>
      .tree node (children.prune (·.id == knot))
    knots := d.knots.erase knot }

/-- Takes the tree at `n` out of its parent. -/
def detach (n : NodeId) : Document :=
  if (d.parent? n).isSome then
    let turned := d.turn n
    if turned.knots.contains n then turned.untie n
    else { d with trees := d.treeAt n ++ d.trees.prune (·.id == n) }
  else d

/-- Takes out the trees at all these nodes. -/
def detachAll (ns : List NodeId) : Document :=
  ns.foldl detach d

/-- Takes out all children of `n`, which are the first part of the result. If `n` is below itself,
it stays where it hangs. -/
def takeChildren (n : NodeId) : List NodeId × Document :=
  let turned := d.turn n
  let children := (d.treeAt n).firstChildren
  (d.children n,
    if turned.knots.contains n then
      { turned with
        trees := children ++ turned.trees.prune (·.id == n)
        knots := turned.knots.erase n }
    else
      { d with
        trees := children ++ d.trees.replace (·.id == n) fun node _ => .tree node .nil })

/-! ## Putting in -/

/--
Takes the tree at `n` out and lets `put` place it at `target`.

If `target` is in that tree, then `n` is placed there a second time and so becomes a knot.
-/
def moveTo (n target : NodeId) (put : Forest Node → Node → Forest Node → Forest Node) : Document :=
  let out := d.detach n
  let moved := out.treeAt n
  let others := out.trees.prune (·.id == n)
  match others.replace? (·.id == target) (put moved) with
  | some trees => { out with trees }
  | none =>
    match moved.replace? (·.id == target) (put moved.firstRoot) with
    | some tree => { out with trees := tree ++ others, knots := n :: out.knots }
    | none => out

/-- Makes `n` the last child of `parent`. -/
def append (parent n : NodeId) : Document :=
  d.moveTo n parent fun moved node children => .tree node (children ++ moved)

/-- Makes `n` a sibling of `reference`; `put` says on which side. Nothing happens if `reference` has
no parent, and next to itself a node is only taken out. -/
def insertBeside (put : Forest Node → Forest Node → Forest Node) (reference n : NodeId) :
    Document :=
  match d.parent? reference with
  | none => d
  | some parent =>
    if reference = n then d.detach n
    else d.moveTo n parent fun moved node children =>
      .tree node (children.replaceRoot (·.id == reference) fun sibling below =>
        put moved (.tree sibling below))

/-- Puts `n` directly before `reference`. -/
def insertBefore (reference n : NodeId) : Document :=
  d.insertBeside (fun moved sibling => moved ++ sibling) reference n

/-- Puts `n` directly after `reference`. -/
def insertAfter (reference n : NodeId) : Document :=
  d.insertBeside (fun moved sibling => sibling ++ moved) reference n

/-- Puts `ns` directly after `cursor`, one behind the other. The first result is the last of them,
or `cursor` if there are none. -/
def insertAllAfter (cursor : NodeId) (ns : List NodeId) : NodeId × Document :=
  ns.foldl (fun (last, d) n => (n, d.insertAfter last n)) (cursor, d)

/-- Puts copies of the trees at `ns` into `parent`, behind its children. -/
def appendCopies (parent : NodeId) (ns : List NodeId) : Document :=
  ns.foldl (fun d n => (d.copy n).2.append parent (d.copy n).1) d

/--
Replaces what `n` says.

For a text that is its content. An element loses its children and gets one text instead, or nothing
if `content` is empty.
-/
def setText (n : NodeId) (content : String) : Document :=
  match d.label? n with
  | some (.text _) => d.relabel n fun _ => .text content
  | _ =>
    let (_, emptied) := d.takeChildren n
    if content.isEmpty then emptied
    else
      let (t, made) := emptied.createText content
      made.append n t

end WordTemplate.Xml.Document
