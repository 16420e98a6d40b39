import WordTemplate.Block.Expansion
import WordTemplate.Finishing
import WordTemplate.Preparation

/-!
# Processing templates

A template is a word processing document with directives in its text. Processing finds the
directives, makes blocks of them, expands each block with the answers of a driver, and cleans up.
After a failure the document stays as far as it was processed.
-/

namespace WordTemplate

open Xml Binding

structure Settings where
  /-- Whether paragraphs that only held directives are removed. -/
  stripEmptyParagraphs : Bool := true
  /-- Whether line breaks between a directive and the nearest text are removed. -/
  trimLineBreaks : Bool := false
  /-- Whether it is checked before expansion that the anchors of inner blocks are in place. -/
  validate : Bool := true
  deriving DecidableEq, Repr

variable {σ : Type}

/-- An error, if there is one. -/
def orThrow {α : Type} (result : Except Error α) : Step Error σ α :=
  match result with
  | .ok a => pure a
  | .error e => throw e

/-- Prepares what is at and below `root` and finds the directives there. -/
def prepare (settings : Settings) (root : NodeId) (d : Document) : List Marker × Document :=
  let (markers, d) := isolateDirectives (d.removeMarkup root) root
  (markers,
    if settings.trimLineBreaks then (markers.map Marker.node).foldl Document.trimLineBreaks d
    else d)

/-- Finds the blocks at and below `root` and takes their contents out of the document. -/
def readBlocks (settings : Settings) (root : NodeId) : Step Error σ (Forest Block.Template) := do
  let markers ← Step.changeGet (prepare settings root)
  let blocks ← orThrow (Block.nest markers)
  let placed ← Step.onDocument (Block.placeAll (blocks.number 0))
  let templates ← Step.changeGet (Block.extractAll placed)
  if settings.validate then orThrow (Block.validate (← Step.document) templates)
  return templates

/-- Finds the blocks at and below `root` and expands them. -/
def expandBlocks (settings : Settings) (driver : Driver σ) (root : NodeId) :
    Step Error σ Unit := do
  let templates ← readBlocks settings root
  Block.ask (driver.substitute root)
  Block.expandAll settings.stripEmptyParagraphs driver templates 0 .all root false

/-- Processes what is at and below `root`. -/
def processAt (settings : Settings) (driver : Driver σ) (root : NodeId) : Step Error σ Unit := do
  expandBlocks settings driver root
  Step.change fun d => d.finish settings.stripEmptyParagraphs root

/-- The body of a document; the root if there is none. -/
def bodyOf (d : Document) : NodeId :=
  ((d.treeAt d.root).toList.find? (·.label.isNamed Word.body)).elim d.root Node.id

/-- Processes the body of the document. -/
def process (settings : Settings) (driver : Driver σ) : Step Error σ Unit := do
  processAt settings driver (bodyOf (← Step.document))

end WordTemplate
