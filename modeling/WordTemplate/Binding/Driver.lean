import WordTemplate.Directive.Scan
import WordTemplate.Word.Text

/-!
# Binding drivers

Everything in a template that depends on a model is asked from a driver: the values of
placeholders, how often a block is repeated, which of its sections is taken. A driver has a state of
its own. What it did before a failure stays done, in its state and in the document.

`Driver.recorded` is a driver that writes down every call and its outcome.
-/

namespace WordTemplate

open Xml

namespace Binding

/-- Why a driver cannot answer. -/
inductive Error where
  /-- The model has no value at the path. -/
  | notFound (path : String)
  | unknownFormatter (name : String)
  /-- The formatter does not support values like the one at the path. -/
  | format (formatter path : String)
  /-- The value at the path has no item with this number. -/
  | noItem (path : String) (index : Nat)
  deriving DecidableEq, Repr

def Error.message : Error → String
  | notFound path => "no model value for " ++ path
  | unknownFormatter name => "unknown formatter " ++ name
  | format formatter path => "formatter " ++ formatter ++ " cannot format value of " ++ path
  | noItem path index => "no item " ++ toString index ++ " in " ++ path

/-- How a block is expanded. -/
inductive Expansion where
  /-- Its content once for each of `count` items; without items, its else sections. -/
  | repeated (count : Nat)
  /-- The section with this number, or nothing. -/
  | branch (choice : Option Nat)
  deriving DecidableEq, Repr

/-- The document being processed and the state of the driver. -/
structure Workspace (σ : Type) where
  document : Document
  state : σ

/-- Steps that can fail. The workspace keeps what was done before the failure. -/
abbrev Step (ε σ : Type) := EStateM ε (Workspace σ)

namespace Step

variable {ε σ α : Type}

/-- The document as it is now. -/
def document : Step ε σ Document :=
  return (← get).document

/-- Changes the document. -/
def change (f : Document → Document) : Step ε σ Unit :=
  modify fun w => { w with document := f w.document }

/-- Changes the document with a result. -/
def changeGet (f : Document → α × Document) : Step ε σ α :=
  modifyGet fun w => ((f w.document).1, { w with document := (f w.document).2 })

/-- A step of the document alone. -/
def onDocument (step : EStateM ε Document α) : Step ε σ α := fun w =>
  match step w.document with
  | .ok a d => .ok a { w with document := d }
  | .error e d => .error e { w with document := d }

/-- A step of the driver's state alone. -/
def onState (step : EStateM ε σ α) : Step ε σ α := fun w =>
  match step w.state with
  | .ok a s => .ok a { w with state := s }
  | .error e s => .error e { w with state := s }

end Step

/-- A source of values for a template, with states `σ`. -/
structure Driver (σ : Type) where
  /-- Fills in the placeholders at and below a node. -/
  substitute : NodeId → Step Error σ Unit
  /-- Decides how the block that the directive opens is expanded. -/
  plan : Directive → EStateM Error σ Expansion
  /-- Makes an item of the collection that the directive opens the current one. -/
  enterItem : Directive → Nat → EStateM Error σ Unit
  /-- Goes back to what was current before the item was entered. -/
  leaveItem : σ → σ

/--
Fills in the placeholders at and below `root`, in document order. `render` gives the value for the
text of a placeholder, or none if it is to be left alone.
-/
def fillPlaceholders {ε : Type} (render : String → Except ε (Option String)) (root : NodeId) :
    EStateM ε Document Unit := do
  (← get).placeholders root |>.forM fun n => do
    match render ((← get).innerText n) with
    | .error e => throw e
    | .ok none => pure ()
    | .ok (some value) => modify fun d => d.writeValue n value

/-! ## Recording -/

/-- A call of a driver and its outcome. -/
inductive Call where
  | substitute (root : NodeId) (before after : Document) (outcome : Except Error Unit)
  | plan (directive : Directive) (outcome : Except Error Expansion)
  | enterItem (directive : Directive) (index : Nat) (outcome : Except Error Unit)
  | leaveItem

/-- Runs a step and adds a call to the log, made from its outcome and the state after it. -/
def recording {ε σ α : Type} (step : EStateM ε σ α) (call : Except ε α → σ → Call) :
    EStateM ε (σ × List Call) α := fun (s, log) =>
  match step s with
  | .ok a s => .ok a (s, log ++ [call (.ok a) s])
  | .error e s => .error e (s, log ++ [call (.error e) s])

/-- The same driver, with a log of its calls beside its state. -/
def Driver.recorded {σ : Type} (driver : Driver σ) : Driver (σ × List Call) where
  substitute root := fun w =>
    let call := fun outcome (after : Workspace σ) =>
      Call.substitute root w.document after.document outcome
    let pack := fun (inner : Workspace σ × List Call) =>
      Workspace.mk inner.1.document (inner.1.state, inner.2)
    match recording (driver.substitute root) call (⟨w.document, w.state.1⟩, w.state.2) with
    | .ok a inner => .ok a (pack inner)
    | .error e inner => .error e (pack inner)
  plan directive := recording (driver.plan directive) fun outcome _ => .plan directive outcome
  enterItem directive index :=
    recording (driver.enterItem directive index) fun outcome _ => .enterItem directive index outcome
  leaveItem := fun (s, log) => (driver.leaveItem s, log ++ [.leaveItem])

end Binding

end WordTemplate
