import WordTemplate.Text.Blank
import WordTemplate.Xml.Document
import WordTemplate.Xml.Token

/-!
# Reading documents

Tokens are put together on a stack of open elements. The reader forgives what can be forgiven: a
second element at the top goes below the first, text outside all elements is ignored, and elements
may be left open at the end.

Blank text between elements is layout and is dropped, except in elements that hold the text of a
word processing document. This is decided for each stretch of character data by itself.
-/

namespace WordTemplate.Xml

/-- Local names of the elements in which blank text counts. -/
def textContainers : List String :=
  ["t", "delText", "instrText"]

/-- Whether character data `content` in an element named `parent` is kept. -/
def keepsText (parent content : String) : Bool :=
  textContainers.contains (localName parent) || !Text.isBlankText content

/-- An element that has begun, with the trees read for it so far, the last one first. -/
structure Frame where
  tag : Element
  children : List (Label × Forest Label)
  deriving Repr

namespace Frame

def add (f : Frame) (label : Label) (children : Forest Label) : Frame :=
  { f with children := (label, children) :: f.children }

/-- Adds character data; it continues a text that is directly in front. -/
def addText (f : Frame) (content : String) : Frame :=
  if keepsText f.tag.name content then
    match f.children with
    | (.text before, below) :: others =>
      { f with children := (.text (before ++ content), below) :: others }
    | _ => f.add (.text content) .nil
  else f

/-- The trees read for the element, in document order. -/
def forest (f : Frame) : Forest Label :=
  Forest.ofTrees f.children.reverse

end Frame

/-- What has been read of a document. -/
structure Partial where
  /-- The root element, with what is complete below it. -/
  root : Frame
  /-- The other elements that have not ended, innermost first. -/
  inner : List Frame
  /-- Whether the root element has not ended. -/
  rootOpen : Bool

namespace Partial

/-- Ends the innermost of the elements below the root. -/
def closeInner (p : Partial) : Partial :=
  match p.inner with
  | [] => p
  | f :: g :: others =>
    { p with inner := g.add (.element f.tag) f.forest :: others }
  | [f] => { p with root := p.root.add (.element f.tag) f.forest, inner := [] }

/-- Begins an element. After the end of the root it goes below the root. -/
def openTag (tag : Element) (empty : Bool) (p : Partial) : Partial :=
  let opened := { p with inner := ⟨tag, []⟩ :: p.inner }
  if empty then opened.closeInner else opened

def addText (content : String) (p : Partial) : Partial :=
  match p.inner with
  | f :: others => { p with inner := f.addText content :: others }
  | [] => if p.rootOpen then { p with root := p.root.addText content } else p

/-- Ends the innermost element, which has to be named `name`. -/
def endTag (name : String) (p : Partial) : Except Error Partial :=
  match p.inner with
  | f :: _ =>
    if f.tag.name = name then .ok p.closeInner
    else .error (.illFormed (.endTagMismatch f.tag.name name))
  | [] =>
    if p.rootOpen then
      if p.root.tag.name = name then .ok { p with rootOpen := false }
      else .error (.illFormed (.endTagMismatch p.root.tag.name name))
    else .error (.illFormed (.strayEndTag name))

/-- Ends all elements. -/
def finish (p : Partial) : Frame :=
  let close (below : Option (Label × Forest Label)) (f : Frame) : Frame :=
    (below.map fun (label, children) => f.add label children).getD f
  let below := p.inner.foldl
    (fun below f => some (.element f.tag, (close below f).forest)) none
  close below p.root

end Partial

/-- Takes up one token. Before the root element has begun there is nothing to add to. -/
def Token.apply (state : Option Partial) : Token → Except Error (Option Partial)
  | declaration => .ok state
  | failure cause => .error cause
  | text content => .ok (state.map (Partial.addText content))
  | startTag tag empty =>
    match state with
    | none => .ok (some ⟨⟨tag, []⟩, [], !empty⟩)
    | some p => .ok (some (p.openTag tag empty))
  | endTag name =>
    match state with
    | none => .error (.illFormed (.strayEndTag name))
    | some p => (p.endTag name).map some

/-- Takes up all tokens, in order. -/
def applyTokens (state : Option Partial) : List Token → Except Error (Option Partial)
  | [] => .ok state
  | t :: ts => (t.apply state).bind (applyTokens · ts)

/-- The text without a byte order mark in front. -/
def dropByteOrderMark (s : List Char) : List Char :=
  match s with
  | '\uFEFF' :: rest => rest
  | _ => s

/-- The document that `markup` describes. -/
def readDocument (markup : String) : Except Error Document :=
  let read := tokens (dropByteOrderMark markup.toList)
  (applyTokens none read).bind fun
    | none => .error .missingRoot
    | some p =>
      let root := p.finish
      .ok { Document.ofTree root.tag root.forest with declaration := read.contains .declaration }

end WordTemplate.Xml
