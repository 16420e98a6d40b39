import WordTemplate.Text.Pieces

/-!
# What a node of a document is

A node is an element, with a qualified name and attributes in document order, or a piece of text.
An element's attribute keys are distinct when every attribute was put there with `setAttribute`.
-/

namespace WordTemplate.Xml

/-- Key and value. -/
abbrev Attribute := String × String

/-- A qualified name with its namespace part, and the attributes in document order. -/
structure Element where
  name : String
  attributes : List Attribute
  deriving DecidableEq, Repr, Inhabited

inductive Label where
  | element (tag : Element)
  | text (content : String)
  deriving DecidableEq, Repr, Inhabited

/-- The part of a qualified name after the last colon. -/
def localName (name : String) : String :=
  match Text.cutLast? ':' name.toList with
  | some (_, after) => String.ofList after
  | none => name

/--
Whether an element of this name only carries formatting for its parent.

The parts of a divided element each keep a copy of such children, and they never count as content.
-/
def isProperty (name : String) : Bool :=
  let part := localName name
  ['P', 'r'].isSuffixOf part.toList || part == "tblGrid"

namespace Label

/-- The name of an element. -/
def name? : Label → Option String
  | element tag => some tag.name
  | text _ => none

/-- The content of a piece of text. -/
def text? : Label → Option String
  | element _ => none
  | text content => some content

def isElement : Label → Bool
  | element _ => true
  | text _ => false

/-- Whether this is an element named `name`. -/
def isNamed (name : String) (l : Label) : Bool :=
  l.name? == some name

/-- Whether this is an element that only carries formatting. -/
def isProperty : Label → Bool
  | element tag => Xml.isProperty tag.name
  | text _ => false

/-- Whether a child with this label counts as content of its parent. -/
def isContent : Label → Bool
  | element tag => !Xml.isProperty tag.name
  | text content => !content.isEmpty

/-- The value of the attribute `key`. -/
def attribute? (key : String) : Label → Option String
  | element tag => tag.attributes.lookup key
  | text _ => none

end Label

/-- Gives `key` the value `value`: in its place if it is there already, else at the end. -/
def putAttribute (key value : String) : List Attribute → List Attribute
  | [] => [(key, value)]
  | (k, v) :: rest =>
    if k = key then (k, value) :: rest else (k, v) :: putAttribute key value rest

/-- The attributes without the first one named `key`. -/
def eraseAttribute (key : String) (attributes : List Attribute) : List Attribute :=
  attributes.eraseP (·.1 == key)

namespace Label

/-- Sets an attribute of an element; text has none. -/
def setAttribute (key value : String) : Label → Label
  | element tag => element { tag with attributes := putAttribute key value tag.attributes }
  | text content => text content

def eraseAttribute (key : String) : Label → Label
  | element tag => element { tag with attributes := Xml.eraseAttribute key tag.attributes }
  | text content => text content

end Label

end WordTemplate.Xml
