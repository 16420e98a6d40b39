import WordTemplate.Block.Template
import WordTemplate.Word.Paragraph

/-!
# Expanding blocks

To expand a block, its content is copied into a fragment, a temporary element, and the driver fills
in the placeholders there. Then the sections that are selected are expanded within the fragment,
the anchors of the others are removed, and what is in the fragment goes into the document behind the
block's anchor. Last the anchor is removed.

In an ignored region everything is verbatim: nothing is asked from the driver, and every section is
selected.
-/

namespace WordTemplate

open Xml Binding

namespace Block

variable {σ : Type}

/-- Which of the blocks below a block are expanded, by their place among them and their kind. -/
abbrev Selection := Nat → Directive.Kind → Bool

/-- All of them. -/
def Selection.all : Selection := fun _ _ => true

/-- The section with this number. -/
def Selection.branch (choice : Option Nat) : Selection := fun i _ => some i == choice

/-- The else sections. -/
def Selection.otherwise : Selection := fun _ kind => kind = .conditionElse

/-- For an item of a collection the main section, and the separators unless the item is the last. -/
def Selection.item (isLast : Bool) : Selection := fun _ kind =>
  match kind with
  | .content => true
  | .collectionSeparator => !isLast
  | _ => false

/-- A step of the driver; what it cannot answer is an error of processing. -/
def ask {α : Type} (step : Step Binding.Error σ α) : Step Error σ α :=
  step.adaptExcept .binding

/-- A step, and then a change of the driver's state, whether the step failed or not. -/
def thenLeave {α : Type} (step : Step Error σ α) (leave : σ → σ) : Step Error σ α := fun w =>
  match step w with
  | .ok a w => .ok a { w with state := leave w.state }
  | .error e w => .error e { w with state := leave w.state }

/-- The anchor of a block, at `scope` or below it. -/
def resolveAnchor (t : Template) (scope : NodeId) : Step Error σ NodeId := do
  match t.anchor.resolve? (← Step.document) scope with
  | some anchor => return anchor
  | none => throw (.insertionPointMissing t.anchor.id)

/-- Takes an anchor out. If empty paragraphs are to be stripped, so is one in which nothing is left
to see. -/
def removeAnchor (strip : Bool) (anchor : NodeId) (d : Document) : Document :=
  let out := d.detach anchor
  match d.ancestorNamed? anchor Word.paragraph with
  | some paragraph => if strip then out.detachEmptyParagraph paragraph else out
  | none => out

/-- What a keyword stands for: a break, of a line or of what it says. -/
def keywordLabel? (keyword : String) : Option Label :=
  let breakOf (attributes : List Attribute) : Label := .element ⟨Word.lineBreak, attributes⟩
  match keyword.toLower with
  | "br" => some (breakOf [])
  | "pagebreak" => some (breakOf [(Word.breakAttribute, "page")])
  | "columnbreak" => some (breakOf [(Word.breakAttribute, "column")])
  | _ => none

/-- Puts the break that a keyword stands for behind `anchor`. -/
def expandKeyword (keyword : String) (anchor : NodeId) : Step Error σ Unit := do
  match keywordLabel? keyword with
  | none => throw (.unknownKeyword keyword)
  | some label =>
    let n ← Step.changeGet (·.create label)
    Step.change (·.insertAfter anchor n)

/-- How the blocks below a block are dealt with: those selected within a scope are expanded. The
last argument says whether this is verbatim. -/
abbrev Inner (σ : Type) := Selection → NodeId → Bool → Step Error σ Unit

/-- One instance of the content of a block. The result are the nodes at its top, without parent. -/
def instantiate (driver : Driver σ) (inner : Inner σ) (t : Template) (verbatim : Bool)
    (select : Selection) : Step Error σ (List NodeId) := do
  let fragment ← Step.changeGet (·.createElement Word.fragment)
  Step.change (·.appendCopies fragment t.content)
  if !verbatim then ask (driver.substitute fragment)
  inner select fragment verbatim
  Step.changeGet (·.takeChildren fragment)

/-- Puts one instance behind `cursor`. The result is its last node, or `cursor` if it is empty. -/
def insertInstance (driver : Driver σ) (inner : Inner σ) (t : Template) (verbatim : Bool)
    (select : Selection) (cursor : NodeId) : Step Error σ NodeId := do
  let nodes ← instantiate driver inner t verbatim select
  Step.changeGet (·.insertAllAfter cursor nodes)

/-- Puts the instance for one item of a collection behind `cursor`. -/
def insertItem (driver : Driver σ) (inner : Inner σ) (t : Template) (count : Nat)
    (cursor : NodeId) (index : Nat) : Step Error σ NodeId := do
  ask (Step.onState (driver.enterItem t.block.start.directive index))
  let nodes ← thenLeave
    (instantiate driver inner t false (.item (index + 1 == count))) driver.leaveItem
  Step.changeGet (·.insertAllAfter cursor nodes)

/-- Puts the instances that a plan asks for behind `anchor`. -/
def insertPlanned (driver : Driver σ) (inner : Inner σ) (t : Template) (anchor : NodeId) :
    Expansion → Step Error σ NodeId
  | .branch choice => insertInstance driver inner t false (.branch choice) anchor
  | .repeated 0 => insertInstance driver inner t false .otherwise anchor
  | .repeated count => (List.range count).foldlM (insertItem driver inner t count) anchor

/-- Expands one block, whose anchor is at `scope` or below it. -/
def expandOne (strip : Bool) (driver : Driver σ) (inner : Inner σ) (t : Template) (scope : NodeId)
    (verbatim : Bool) : Step Error σ Unit := do
  let anchor ← resolveAnchor t scope
  let directive := t.block.start.directive
  let verbatim := verbatim || t.kind = .ignoreStart
  if t.kind = .inlineKeyword then expandKeyword directive.expression anchor
  else if (t.kind = .collectionStart || t.kind = .conditionStart) && !verbatim then
    let plan ← ask (Step.onState (driver.plan directive))
    discard (insertPlanned driver inner t anchor plan)
  else discard (insertInstance driver inner t verbatim .all anchor)
  Step.change (removeAnchor strip anchor)

/--
Goes through blocks side by side. Those that are selected are expanded within `scope`; of the
others the anchors are removed. `i` is the place of the first of them.
-/
def expandAll (strip : Bool) (driver : Driver σ) :
    Forest Template → Nat → Selection → NodeId → Bool → Step Error σ Unit
  | .nil, _, _, _, _ => return ()
  | .cons t inner rest, i, select, scope, verbatim => do
    if select i t.kind then
      expandOne strip driver (expandAll strip driver inner 0) t scope verbatim
    else
      let anchor ← resolveAnchor t scope
      Step.change (removeAnchor strip anchor)
    expandAll strip driver rest (i + 1) select scope verbatim

end Block

end WordTemplate
