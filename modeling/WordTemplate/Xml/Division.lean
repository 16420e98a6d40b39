import WordTemplate.Xml.Edit

/-!
# Dividing elements

An element is divided right after or right before a node below it. The element itself keeps the
part that holds the node, and a new element, its counterpart, gets the rest. This happens at every
level between the node and the element, so the counterpart holds counterparts of the elements on
the way. A counterpart has the attributes of its element and copies of its property children; one
without content is left out.

Both directions are one recursion over the children of an element. It yields a `Division`, which
says what stays, what goes to the counterpart, and which counterparts were left out.
-/

namespace WordTemplate.Xml

/-- The outcome of dividing the children of one element. -/
structure Division where
  /-- The children that stay. -/
  kept : Forest Node
  /-- The counterpart of the divided child, if it has content. -/
  lower : Forest Node
  /-- The other children that move to the counterpart of the element. -/
  moved : Forest Node
  /-- Counterparts without content. -/
  dropped : Forest Node
  /-- The number of the next new node. -/
  fresh : Nat
  deriving DecidableEq, Repr

namespace Division

/-- Copies of the children among `nodes` that only carry formatting. -/
def propertyCopies (fresh : Nat) (nodes : Forest Node) : Forest Node :=
  identify fresh (labels (nodes.filterRoots (·.label.isProperty)))

/--
The division one level up, at `node`, whose children were divided by `below`.

`properties` holds the children of `node` to be copied for formatting, and `gone` is what goes to
the counterpart of `node`.
-/
def raise (below : Division) (node : Node) (properties gone : Forest Node) : Division :=
  let copies := propertyCopies (below.fresh + 1) properties
  let inside := copies ++ gone
  let counterpart := Forest.tree { node with id := ⟨below.fresh⟩ } inside
  let solid := inside.roots.any (·.label.isContent)
  { kept := .tree node below.kept
    lower := if solid then counterpart else .nil
    moved := .nil
    dropped := if solid then below.dropped else counterpart ++ below.dropped
    fresh := below.fresh + 1 + copies.size }

/-- Divides after `place`: the siblings that follow the child on the way to `place` move. -/
def after (place : NodeId) (fresh : Nat) : Forest Node → Division
  | .nil => ⟨.nil, .nil, .nil, .nil, fresh⟩
  | .cons node children rest =>
    if node.id = place then ⟨.tree node children, .nil, rest, .nil, fresh⟩
    else if children.any (·.id == place) then
      let below := after place fresh children
      { below.raise node (below.kept ++ below.moved) (below.lower ++ below.moved) with
        moved := rest }
    else
      let others := after place fresh rest
      { others with kept := .cons node children others.kept }

/-- Divides before `place`: the siblings in front of the child on the way to `place` move, except
those that only carry formatting. -/
def before (place : NodeId) (fresh : Nat) : Forest Node → Division
  | .nil => ⟨.nil, .nil, .nil, .nil, fresh⟩
  | .cons node children rest =>
    if node.id = place then ⟨.cons node children rest, .nil, .nil, .nil, fresh⟩
    else if children.any (·.id == place) then
      let below := before place fresh children
      let here := below.raise node below.kept (below.moved ++ below.lower)
      { here with kept := here.kept ++ rest }
    else
      let others := before place fresh rest
      if node.label.isProperty then { others with kept := .cons node children others.kept }
      else { others with moved := .cons node children others.moved }

end Division

namespace Document

variable (d : Document)

/-- Puts `parts` in the place of `container` and keeps what the division left out. -/
def settle (container : NodeId) (division : Division) (parts : Forest Node) : Document :=
  { d with
    trees := division.dropped ++ d.trees.replace (·.id == container) fun _ _ => parts
    fresh := division.fresh }

/--
Puts a divided knot in its place, with the counterpart beside it by `insert`.

If the place where the knot hangs went to a counterpart, the knot is below itself no more, unless
the counterpart is put below itself in turn.
-/
def settleKnot (knot : NodeId) (division : Division)
    (insert : Document → NodeId → NodeId → Document) : Document :=
  let others := d.trees.prune (·.id == knot)
  let parts := division.lower ++ division.dropped
  let settled : Document :=
    if parts.any (·.id == knot) then
      { d with
        trees := parts.replace (·.id == knot) (fun _ _ => division.kept) ++ others
        fresh := division.fresh
        knots := d.knots.erase knot }
    else { d with trees := division.kept ++ parts ++ others, fresh := division.fresh }
  (division.lower.roots.map Node.id).foldl (insert · knot) settled

/--
Divides `container` right after `place`. What follows `place` moves into a new element behind
`container`; the result is `container` and that element, or `container` alone if nothing follows
or `place` is not below it.
-/
def divideAfter (container place : NodeId) : List NodeId × Document :=
  if container ≠ place ∧ d.isAncestor container place then
    let division := Division.after place d.fresh (d.treeAt container)
    let turned := d.turn container
    (container :: division.lower.roots.map Node.id,
      if turned.knots.contains container then
        turned.settleKnot container division Document.insertAfter
      else d.settle container division (division.kept ++ division.lower))
  else ([container], d)

/--
Divides `container` right before `place`. What precedes `place` moves into a new element in front of
`container`; the result is that element and `container`, or `container` alone if nothing precedes
or `place` is not below it.
-/
def divideBefore (container place : NodeId) : List NodeId × Document :=
  if container ≠ place ∧ d.isAncestor container place then
    let division := Division.before place d.fresh (d.treeAt container)
    let turned := d.turn container
    (division.lower.roots.map Node.id ++ [container],
      if turned.knots.contains container then
        turned.settleKnot container division Document.insertBefore
      else d.settle container division (division.lower ++ division.kept))
  else ([container], d)

end Document

end WordTemplate.Xml
