import WordTemplate.Binding.Condition

/-!
# Binding to a model

The driver that takes its answers from a JSON model. Its state are the scopes: entering an item of
a collection makes the item the innermost scope.

When the model has no answer, the driver fails or goes on without: a placeholder becomes empty, a
block expands to nothing, and a missing item is `null`. Entering an item of a collection that is not
there fails in any case.
-/

namespace WordTemplate.Binding

/-- What to do when the model has no answer. -/
inductive OnError where
  | fail
  | skip
  deriving DecidableEq, Repr, Inhabited

/-- Formatters and error handling of a model driver. -/
structure ModelBinding where
  formatters : List Formatter := Formatter.builtin
  onError : OnError := .fail

namespace ModelBinding

variable (b : ModelBinding)

/-- Adds a formatter, which comes before those of the same name. -/
def withFormatter (f : Formatter) : ModelBinding :=
  { b with formatters := f :: b.formatters }

/-- Goes on with `fallback` instead of a failure if failures are to be skipped. -/
def recover {α : Type} (fallback : α) (result : Except Error α) : Except Error α :=
  match result, b.onError with
  | .error _, .skip => .ok fallback
  | result, _ => result

/-- The text for a placeholder. -/
def render (scopes : Scopes) (d : Directive) : Except Error String := do
  let value ← resolve scopes d.expression.toList
  match d.formatter with
  | none => return value.display
  | some name =>
    match Formatter.find? b.formatters name with
    | none => throw (.unknownFormatter name)
    | some f =>
      match f.format? value d.arguments with
      | none => throw (.format name d.expression)
      | some s => return s

/-- The text for a placeholder that is written as `text`; none if that is no directive. -/
def renderText (scopes : Scopes) (text : String) : Except Error (Option String) :=
  match Directive.parse? text with
  | none => .ok none
  | some d => (b.recover "" (b.render scopes d)).map some

/-- How often or where the block that `d` opens is expanded. -/
def plan (scopes : Scopes) (d : Directive) : Except Error Expansion :=
  b.recover (.branch none) <|
    match d.kind with
    | .collectionStart =>
      (resolve scopes d.expression.toList).map fun
        | .array items => .repeated items.length
        | other => .repeated other.isTruthy.toNat
    | .conditionStart =>
      (evaluate scopes d.expression).map fun result => .branch (some (if result then 0 else 1))
    | _ => .ok (.branch (some 0))

/-- The item with number `index` of the collection that `d` opens. A value that is no array has
itself as its only item. -/
def item (scopes : Scopes) (d : Directive) (index : Nat) : Except Error Json := do
  let value ← resolve scopes d.expression.toList
  let found :=
    match value with
    | .array items => items[index]?
    | other => if index = 0 then some other else none
  b.recover .null <|
    match found with
    | some item => .ok item
    | none => .error (.noItem d.expression index)

/-- An answer that leaves the state alone, as a step. -/
def answer {σ α : Type} (result : Except Error α) : EStateM Error σ α :=
  match result with
  | .ok a => pure a
  | .error e => throw e

/-- The driver with the scopes of the model as its state. -/
def driver : Driver Scopes where
  substitute root := do
    let scopes := (← get).state
    Step.onDocument (fillPlaceholders (b.renderText scopes) root)
  plan d := do answer (b.plan (← get) d)
  enterItem d index := do
    let scopes ← get
    let item ← answer (b.item scopes d index)
    set (scopes.push item)
  leaveItem := Scopes.pop

end ModelBinding

end WordTemplate.Binding
