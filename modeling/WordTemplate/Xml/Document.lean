import WordTemplate.Forest
import WordTemplate.Xml.Label

/-!
# Documents

A document is a forest of labelled nodes, each with an identifier of its own. The tree that holds
the document's root is what the document shows; the other trees are parts that were taken out or
not yet put in. Looking up a node that is not in the document gives nothing.

Everything a node's place determines (its parent, its siblings, the nodes above and below it) is
read off the forest, so a child has one parent by the shape of the data.

Nothing hinders a node from being put below itself. It is then a knot: it is at the top of its tree,
and at the place where it hangs it stands a second time, without children. Each node on the way
between the two is below itself as well, and any of them can be the knot: `turn` picks one.

`Document.WellFormed` says that there are no knots, that identifiers are distinct, that those still
to be given are larger than all of them, and that the root is there.
-/

namespace WordTemplate.Xml

/-- The identifier of a node. It stays with the node wherever the node is moved. -/
structure NodeId where
  number : Nat
  deriving DecidableEq, Repr, Inhabited

structure Node where
  id : NodeId
  label : Label
  deriving DecidableEq, Repr, Inhabited

/-- A document and the parts taken out of it. -/
structure Document where
  /-- All trees; the order among them says nothing. -/
  trees : Forest Node
  /-- The element that the document shows. -/
  root : NodeId
  /-- The number of the next node to be made. -/
  fresh : Nat
  /-- Whether an XML declaration stands in front. -/
  declaration : Bool
  /-- The nodes at the top of a tree that also stand below themselves. -/
  knots : List NodeId
  deriving DecidableEq, Repr

/-- Identifiers for a forest of labels, in document order from `first` on. -/
def identify (first : Nat) (labels : Forest Label) : Forest Node :=
  (labels.number first).map fun (i, label) => ⟨⟨i⟩, label⟩

/-- The labels of a forest of nodes. -/
def labels (nodes : Forest Node) : Forest Label :=
  nodes.map Node.label

/-- The texts in document order. Nodes below a text do not count. -/
def innerText : Forest Label → String
  | .nil => ""
  | .cons (.text content) _ rest => content ++ innerText rest
  | .cons (.element _) children rest => innerText children ++ innerText rest

namespace Document

/-- The document with the given root element, its nodes numbered in document order. -/
def ofTree (tag : Element) (children : Forest Label) : Document where
  trees := identify 0 (.tree (.element tag) children)
  root := ⟨0⟩
  fresh := children.size + 1
  declaration := false
  knots := []

/-- The document of one empty element. -/
def ofRoot (name : String) : Document :=
  ofTree ⟨name, []⟩ .nil

variable (d : Document) (n : NodeId)

/-- The identifiers in use. -/
def ids : List NodeId :=
  d.trees.toList.map Node.id

/-- No node below itself, and distinct identifiers, all smaller than the next one to be given, with
the root among them. -/
structure WellFormed : Prop where
  knots_eq : d.knots = []
  nodup : d.ids.Nodup
  lt_fresh : ∀ n ∈ d.ids, n.number < d.fresh
  root_mem : d.root ∈ d.ids

/-! ## Knots -/

/--
The same document with `n` for a knot, if `n` is below itself.

The knot `k` that is there stands below `n`, so the tree at `n` goes to the top, and the rest of the
tree of `k` goes to where `k` stands.
-/
def turn : Document :=
  match d.knots.find? fun k => k != n && (d.trees.treeAt (·.id == n)).any (·.id == k) with
  | none => d
  | some k =>
    let part := d.trees.treeAt (·.id == n)
    let others := (d.trees.treeAt (·.id == k)).replace (·.id == n) fun node _ => .tree node .nil
    { d with
      trees := part.replace (·.id == k) (fun _ _ => others) ++ d.trees.prune (·.id == k)
      knots := n :: d.knots.erase k }

/-- The nodes from a knot up to itself, nearest first. -/
def loop (knot : NodeId) : List NodeId :=
  let below := (d.trees.treeAt (·.id == knot)).firstChildren
  ((below.above? (·.id == knot)).getD []).map Node.id ++ [knot]

/-! ## Looking up a node -/

/-- The tree at `n`. If `n` is below itself, it stands there a second time, without children. -/
def treeAt : Forest Node :=
  (d.turn n).trees.treeAt (·.id == n)

/-- The tree at `n`, without identifiers. -/
def labelsAt : Forest Label :=
  labels (d.treeAt n)

def label? : Option Label :=
  (d.treeAt n).roots.head?.map Node.label

def name? : Option String :=
  (d.label? n).bind Label.name?

def text? : Option String :=
  (d.label? n).bind Label.text?

def isNamed (name : String) : Bool :=
  d.name? n == some name

/-- Whether `n` is an element that only carries formatting. -/
def isProperty : Bool :=
  (d.label? n).any Label.isProperty

def attribute? (key : String) : Option String :=
  (d.label? n).bind (Label.attribute? key)

/-- The texts at and below `n`. -/
def innerText : String :=
  Xml.innerText (d.labelsAt n)

/-! ## Places -/

def children : List NodeId :=
  (d.treeAt n).firstChildren.roots.map Node.id

/-- The children that are elements. -/
def elementChildren : List NodeId :=
  ((d.treeAt n).firstChildren.roots.filter (·.label.isElement)).map Node.id

/-- The nodes below `n` in document order. -/
def nodesBelow : List Node :=
  (d.treeAt n).firstChildren.toList

/-- The identifiers of the nodes below `n` in document order. -/
def descendants : List NodeId :=
  (d.nodesBelow n).map Node.id

/-- The nodes above `n`, nearest first. If the last of them or `n` itself is a knot, those above
the knot follow, up to the knot again. -/
def ancestors : List NodeId :=
  let up := ((d.trees.above? (·.id == n)).getD []).map Node.id
  up ++ (d.knots.find? (n :: up).contains).elim [] d.loop

def parent? : Option NodeId :=
  (d.ancestors n).head?

/-- The children of the parent of `n`, among them `n`; none if `n` has no parent. -/
def siblings : List NodeId :=
  ((d.parent? n).map d.children).getD []

/-- The place of `n` among its parent's children. -/
def index? : Option Nat :=
  (d.siblings n).idxOf? n

def nextSibling? : Option NodeId :=
  (d.index? n).bind fun i => (d.siblings n)[i + 1]?

def previousSibling? : Option NodeId :=
  (d.index? n).bind fun
    | 0 => none
    | i + 1 => (d.siblings n)[i]?

/-- The nearest node above `n` that is an element named `name`. -/
def ancestorNamed? (name : String) : Option NodeId :=
  (d.ancestors n).find? (d.isNamed · name)

/-- Whether `above` is above `n`. -/
def isAncestor (above n : NodeId) : Bool :=
  (d.ancestors n).contains above

/-- Whether `n` is the document's root or below it. -/
def isAttached : Bool :=
  n == d.root || d.isAncestor d.root n

/-- Whether some child of `n` counts as content. -/
def hasContent : Bool :=
  (d.treeAt n).firstChildren.roots.any (·.label.isContent)

/-- The nearest node above both `a` and `b`. -/
def commonAncestor? (a b : NodeId) : Option NodeId :=
  (d.ancestors b).find? (d.ancestors a).contains

/-- The child of `above` that is `n` or has `n` below it. -/
def childToward? (above n : NodeId) : Option NodeId :=
  (n :: d.ancestors n).find? fun m => d.parent? m == some above

/-- The siblings strictly between `first` and `last`; none unless `last` follows `first`. -/
def between (first last : NodeId) : List NodeId :=
  match d.index? first, d.index? last with
  | some i, some j =>
    if d.parent? first = d.parent? last then ((d.siblings first).take j).drop (i + 1) else []
  | _, _ => []

end Document

end WordTemplate.Xml
