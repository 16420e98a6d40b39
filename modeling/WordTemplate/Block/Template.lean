import WordTemplate.Block.Placement

/-!
# Blocks with their content

After the blocks have been placed, the content of each is taken out of the document, that of inner
blocks first. So the content of a block holds the anchors of the blocks within it, but not their
content. From then on it serves as the template from which instances are copied.
-/

namespace WordTemplate

open Xml

namespace Block

/-- A block with its number and the nodes at the top of its content, which have no parent. -/
structure Template where
  number : Nat
  block : Block
  content : List NodeId
  deriving DecidableEq, Repr

namespace Template

def kind (t : Template) : Directive.Kind :=
  t.block.kind

/-- The insertion point that the anchor carries. -/
def anchor (t : Template) : InsertionPoint :=
  startPoint t.kind t.number

end Template

/-- Takes the content of all blocks out of the document. -/
def extractAll : Forest Placed → Document → Forest Template × Document
  | .nil, d => (.nil, d)
  | .cons p inner rest, d =>
    let (inner, d) := extractAll inner d
    let content := d.between p.first p.last
    let (rest, d) := extractAll rest (d.detachAll content)
    (.cons ⟨p.number, p.block, content⟩ inner rest, d)

/-- Checks that the anchor of `inner` is in the content of `t`. -/
def checkAnchor (d : Document) (t inner : Template) : Except Error Unit :=
  if t.content.any fun n => (inner.anchor.resolve? d n).isSome then .ok ()
  else .error (.insertionPointMisplaced inner.anchor.id inner.block.name)

/-- Checks that the anchor of every block below another one is in the content of that one. -/
def validate (d : Document) : Forest Template → Except Error Unit
  | .nil => .ok ()
  | .cons t inner rest => do
    inner.roots.forM (checkAnchor d t)
    validate d inner
    validate d rest

end Block

end WordTemplate
