import WordTemplate.Json.Token

/-!
# Reading JSON

Tokens are put together on a stack of open arrays and objects. Nesting is limited: a text that
opens too many arrays and objects inside each other is not accepted.
-/

namespace WordTemplate.Json

/-- An array or object that has begun, with what was read of it, the last item first. -/
inductive Frame where
  | array (items : List Json)
  /-- `key` is the name of the member that comes next. -/
  | object (members : List (String × Json)) (key : String)

/-- What may come next. -/
inductive Expected where
  | value
  /-- The first item of an array, or its end. -/
  | firstItem
  /-- The name of the first member of an object, or the end of the object. -/
  | firstKey
  | key
  | colon
  /-- A comma, or the end of the innermost array or object. -/
  | separator
  /-- Nothing: this is the value of the text. -/
  | nothing (result : Json)

/-- How deep arrays and objects may be nested. -/
def maxDepth : Nat := 127

structure Progress where
  stack : List Frame
  expected : Expected

/-- Goes on after a complete value. -/
def Progress.complete (value : Json) : List Frame → Progress
  | [] => ⟨[], .nothing value⟩
  | .array items :: stack => ⟨.array (value :: items) :: stack, .separator⟩
  | .object members key :: stack => ⟨.object ((key, value) :: members) key :: stack, .separator⟩

/-- Begins a value; `stack` is what is open around it. -/
def Progress.beginValue? (stack : List Frame) : Token → Option Progress
  | .scalar value => some (complete value stack)
  | .beginArray => if stack.length < maxDepth then some ⟨.array [] :: stack, .firstItem⟩ else none
  | .beginObject =>
    if stack.length < maxDepth then some ⟨.object [] "" :: stack, .firstKey⟩ else none
  | _ => none

/-- Ends the innermost array or object. -/
def Progress.endFrame? (token : Token) : List Frame → Option Progress
  | .array items :: stack =>
    if token == .endArray then some (complete (.array items.reverse) stack) else none
  | .object members _ :: stack =>
    if token == .endObject then some (complete (ofMembers members.reverse) stack) else none
  | [] => none

/-- Reads the name of a member. -/
def Progress.beginMember? (token : Token) : List Frame → Option Progress
  | .object members _ :: stack =>
    match token with
    | .scalar (.string key) => some ⟨.object members key :: stack, .colon⟩
    | _ => none
  | _ => none

/-- Takes up one token. -/
def Progress.step? (p : Progress) (token : Token) : Option Progress :=
  match p.expected with
  | .value => beginValue? p.stack token
  | .firstItem => (endFrame? token p.stack).or (beginValue? p.stack token)
  | .firstKey => (endFrame? token p.stack).or (beginMember? token p.stack)
  | .key => beginMember? token p.stack
  | .colon => if token == .colon then some { p with expected := .value } else none
  | .separator =>
    if token == .comma then
      match p.stack with
      | .object .. :: _ => some { p with expected := .key }
      | _ => some { p with expected := .value }
    else endFrame? token p.stack
  | .nothing _ => none

/-- The value that a JSON text describes. -/
def read? (s : String) : Option Json := do
  let read ← tokens? s.toList
  let final ← read.foldlM Progress.step? ⟨[], .value⟩
  match final.expected with
  | .nothing result => some result
  | _ => none

end WordTemplate.Json
