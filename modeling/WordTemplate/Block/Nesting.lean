import WordTemplate.Error
import WordTemplate.Forest

/-!
# Blocks and how they are nested

A block goes from one directive to another. Below it are its sections: the main section from its
start to the first separator, and one more from each separator to the next. Blocks within a section
are below that section. A keyword is a block of its own, without sections.

`nest` builds this forest from the directives in the order of the text. Any directive that ends a
block ends the innermost one.
-/

namespace WordTemplate

/-- A directive and the text element that holds it. -/
structure Marker where
  node : Xml.NodeId
  directive : Directive
  deriving DecidableEq, Repr

/-- A block or a section of a block. -/
structure Block where
  kind : Directive.Kind
  start : Marker
  stop : Marker
  deriving DecidableEq, Repr

namespace Block

/-- The directive by which errors refer to the block. -/
def name (b : Block) : String :=
  b.start.directive.text

/-- A block together with what is below it. -/
abbrev Built := Block × Forest Block

/-- A block that has begun, with the section it is in. The lists have the last element first. -/
structure Opened where
  kind : Directive.Kind
  start : Marker
  sections : List Built
  sectionKind : Directive.Kind
  sectionStart : Marker
  inner : List Built

namespace Opened

/-- A block at its start, in its main section. -/
def begin (m : Marker) : Opened where
  kind := m.directive.kind
  start := m
  sections := []
  sectionKind := .content
  sectionStart := m
  inner := []

/-- Adds a block to the current section. -/
def add (o : Opened) (b : Built) : Opened :=
  { o with inner := b :: o.inner }

/-- The current section, ended by `m`. -/
def currentSection (o : Opened) (m : Marker) : Built :=
  (⟨o.sectionKind, o.sectionStart, m⟩, Forest.ofTrees o.inner.reverse)

/-- Goes on to the section that `m` begins. -/
def separate (o : Opened) (m : Marker) : Opened :=
  { o with
    sections := o.currentSection m :: o.sections
    sectionKind := m.directive.kind
    sectionStart := m
    inner := [] }

/-- The block, ended by `m`. -/
def close (o : Opened) (m : Marker) : Built :=
  (⟨o.kind, o.start, m⟩, Forest.ofTrees (o.currentSection m :: o.sections).reverse)

end Opened

/-- The complete blocks at the top, and the open ones, innermost first. The last element of each
list comes first. -/
structure Progress where
  roots : List Built
  opened : List Opened

namespace Progress

/-- Adds a complete block to the innermost open one. -/
def add (p : Progress) (b : Built) : Progress :=
  match p.opened with
  | [] => { p with roots := b :: p.roots }
  | o :: outer => { p with opened := o.add b :: outer }

/-- Takes up one directive. Placeholders are not blocks. -/
def feed (p : Progress) (m : Marker) : Except Error Progress :=
  let kind := m.directive.kind
  if kind = .inlineKeyword then .ok (p.add (⟨kind, m, m⟩, .nil))
  else if kind.isBlockStart then .ok { p with opened := .begin m :: p.opened }
  else if kind.isSeparator then
    match p.opened with
    | [] => .error (.unbalanced m.directive.text)
    | o :: outer => .ok { p with opened := o.separate m :: outer }
  else if kind.isBlockEnd then
    match p.opened with
    | [] => .error (.unbalanced m.directive.text)
    | o :: outer => .ok (Progress.add { p with opened := outer } (o.close m))
  else .ok p

/-- The forest of all blocks, unless some are still open. -/
def finish (p : Progress) : Except Error (Forest Block) :=
  if p.opened.isEmpty then .ok (Forest.ofTrees p.roots.reverse)
  else .error (.unclosed (p.opened.reverse.map (·.start.directive.text)))

end Progress

/-- The blocks that the directives of a text make, nested as they stand. -/
def nest (markers : List Marker) : Except Error (Forest Block) :=
  (markers.foldlM Progress.feed ⟨[], []⟩).bind Progress.finish

end Block

end WordTemplate
