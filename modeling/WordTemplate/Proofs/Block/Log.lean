import WordTemplate.Proofs.Block.Expansion

/-!
# The instances that an expansion makes

An expansion makes many instances of the contents of blocks, one within the other and one after the
other. `Logged` is a step with a log of the instances that are made in its course, up to the point where
it ends or fails: a forest in which the instances made in the course of another one are below that.

`Logged.expandAll` is the expansion of blocks with its log. It is put together as `Block.expandAll` is,
so that this is what remains of it without the log.

* `Logged.step_expandAll`: the log changes nothing.
-/

namespace WordTemplate

open Xml Forest Binding

variable {σ α β γ : Type}

/-- An instance of the content of a block, with the document before and after it was made. -/
structure Instance where
  template : Block.Template
  before : Document
  after : Document
  /-- The nodes at its top; none if it failed. -/
  top : List NodeId

namespace Instance

/-- The nodes that were made for the instance. -/
def nodes (x : Instance) : List NodeId :=
  x.after.ids.filter (· ∉ x.before.ids)

/-- What is copied for the instance before anything else is done to it. -/
def copied (x : Instance) : Forest Label :=
  let (fragment, made) := x.before.createElement Word.fragment
  labels ((made.appendCopies fragment x.template.content).treeAt fragment).firstChildren

end Instance

/-- The document in the end, whether a step succeeded or not. -/
def documentAfter {ε : Type} (result : EStateM.Result ε (Workspace σ) α) : Document :=
  match result with
  | .ok _ w => w.document
  | .error _ w => w.document

/-- A step with the instances that are made in its course. -/
structure Logged (σ α : Type) where
  step : Step Error σ α
  log : Workspace σ → Forest Instance

namespace Logged

instance : Monad (Logged σ) where
  pure a := ⟨pure a, fun _ => .nil⟩
  bind m f :=
    { step := m.step >>= fun a => (f a).step
      log := fun w => m.log w ++
        match m.step w with
        | .ok a w' => (f a).log w'
        | .error _ _ => .nil }

/-- A step that makes no instances. -/
def just (m : Step Error σ α) : Logged σ α :=
  ⟨m, fun _ => .nil⟩

/-- A step that is made only in some cases. -/
def onlyIf (condition : Bool) (m : Logged σ Unit) : Logged σ Unit :=
  if condition then m else pure ()

/-- The same step as an instance of the content of `t`. -/
def asInstance (t : Block.Template) (m : Logged σ (List NodeId)) : Logged σ (List NodeId) where
  step := m.step
  log w := .tree
    { template := t
      before := w.document
      after := documentAfter (m.step w)
      top := match m.step w with
        | .ok ns _ => ns
        | .error _ _ => [] }
    (m.log w)

def thenLeave (m : Logged σ α) (leave : σ → σ) : Logged σ α :=
  ⟨Block.thenLeave m.step leave, m.log⟩

/-! ## Expansions with a log -/

/-- How the blocks below a block are dealt with. -/
abbrev Inner (σ : Type) := Block.Selection → NodeId → Bool → Logged σ Unit

/-- One instance of the content of a block. -/
def instantiate (driver : Driver σ) (inner : Inner σ) (t : Block.Template) (verbatim : Bool)
    (select : Block.Selection) : Logged σ (List NodeId) :=
  asInstance t do
    let fragment ← just (Step.changeGet (·.createElement Word.fragment))
    just (Step.change (·.appendCopies fragment t.content))
    onlyIf (!verbatim) (just (Block.ask (driver.substitute fragment)))
    inner select fragment verbatim
    just (Step.changeGet (·.takeChildren fragment))

def insertInstance (driver : Driver σ) (inner : Inner σ) (t : Block.Template) (verbatim : Bool)
    (select : Block.Selection) (cursor : NodeId) : Logged σ NodeId := do
  let nodes ← instantiate driver inner t verbatim select
  just (Step.changeGet (·.insertAllAfter cursor nodes))

def insertItem (driver : Driver σ) (inner : Inner σ) (t : Block.Template) (count : Nat)
    (cursor : NodeId) (index : Nat) : Logged σ NodeId := do
  just (Block.ask (Step.onState (driver.enterItem t.block.start.directive index)))
  let nodes ← thenLeave
    (instantiate driver inner t false (.item (index + 1 == count))) driver.leaveItem
  just (Step.changeGet (·.insertAllAfter cursor nodes))

def insertPlanned (driver : Driver σ) (inner : Inner σ) (t : Block.Template) (anchor : NodeId) :
    Expansion → Logged σ NodeId
  | .branch choice => insertInstance driver inner t false (.branch choice) anchor
  | .repeated 0 => insertInstance driver inner t false .otherwise anchor
  | .repeated count => (List.range count).foldlM (insertItem driver inner t count) anchor

/-- What is put behind the anchor of a block. -/
def expandBody (driver : Driver σ) (inner : Inner σ) (t : Block.Template) (verbatim : Bool)
    (anchor : NodeId) : Logged σ Unit :=
  let directive := t.block.start.directive
  if t.kind = .inlineKeyword then just (Block.expandKeyword directive.expression anchor)
  else if (t.kind = .collectionStart || t.kind = .conditionStart) && !verbatim then do
    let plan ← just (Block.ask (Step.onState (driver.plan directive)))
    discard (insertPlanned driver inner t anchor plan)
  else discard (insertInstance driver inner t verbatim .all anchor)

/-- Expands the blocks that are selected, and removes the anchors of the others. -/
def expandAll (strip : Bool) (driver : Driver σ) :
    Forest Block.Template → Nat → Block.Selection → NodeId → Bool → Logged σ Unit
  | .nil, _, _, _, _ => return ()
  | .cons t inner rest, i, select, scope, verbatim => do
    let anchor ← just (Block.resolveAnchor t scope)
    onlyIf (select i t.kind)
      (expandBody driver (expandAll strip driver inner 0) t (verbatim || t.kind = .ignoreStart) anchor)
    just (Step.change (Block.removeAnchor strip anchor))
    expandAll strip driver rest (i + 1) select scope verbatim

/-! ## Without the log -/

section Erasure

@[simp] theorem step_pure (a : α) : (pure a : Logged σ α).step = pure a := rfl

@[simp] theorem step_bind (m : Logged σ α) (f : α → Logged σ β) :
    (m >>= f).step = m.step >>= fun a => (f a).step := rfl

@[simp] theorem step_just (m : Step Error σ α) : (just m).step = m := rfl

@[simp] theorem step_discard (m : Logged σ α) : (discard m).step = discard m.step := rfl

@[simp] theorem step_thenLeave (m : Logged σ α) (leave : σ → σ) :
    (m.thenLeave leave).step = Block.thenLeave m.step leave := rfl

@[simp] theorem step_onlyIf (condition : Bool) (m : Logged σ Unit) :
    (onlyIf condition m).step = if condition then m.step else pure () := by
  cases condition <;> rfl

theorem step_foldlM (f : α → γ → Logged σ α) (l : List γ) (a : α) :
    (l.foldlM f a).step = l.foldlM (fun a c => (f a c).step) a := by
  induction l generalizing a with
  | nil => rfl
  | cons c l ih =>
    rw [List.foldlM_cons, List.foldlM_cons, step_bind]
    exact bind_congr ih

variable {driver : Driver σ} {inner : Inner σ} {t : Block.Template}

/-- The same without the log. -/
def Inner.step (inner : Inner σ) : Block.Inner σ :=
  fun select scope verbatim => (inner select scope verbatim).step

theorem step_instantiate (verbatim : Bool) (select : Block.Selection) :
    (instantiate driver inner t verbatim select).step =
      Block.instantiate driver inner.step t verbatim select := by
  cases verbatim <;> rfl

theorem step_insertInstance (verbatim : Bool) (select : Block.Selection) (cursor : NodeId) :
    (insertInstance driver inner t verbatim select cursor).step =
      Block.insertInstance driver inner.step t verbatim select cursor := by
  rw [insertInstance, step_bind, step_instantiate]
  rfl

theorem step_insertItem (count : Nat) (cursor : NodeId) (index : Nat) :
    (insertItem driver inner t count cursor index).step =
      Block.insertItem driver inner.step t count cursor index := by
  rw [insertItem, Block.insertItem, step_bind]
  refine bind_congr fun _ => ?_
  rw [step_bind, step_thenLeave, step_instantiate]
  rfl

theorem step_insertPlanned (anchor : NodeId) (plan : Expansion) :
    (insertPlanned driver inner t anchor plan).step =
      Block.insertPlanned driver inner.step t anchor plan := by
  match plan with
  | .branch choice => exact step_insertInstance ..
  | .repeated 0 => exact step_insertInstance ..
  | .repeated (count + 1) =>
    refine (step_foldlM ..).trans ?_
    simp only [step_insertItem]
    rfl

theorem step_expandBody (verbatim : Bool) (anchor : NodeId) :
    (expandBody driver inner t verbatim anchor).step =
      WordTemplate.expandBody driver inner.step t verbatim anchor := by
  unfold expandBody WordTemplate.expandBody
  dsimp only
  split
  · rfl
  · split
    · rw [step_bind]
      refine bind_congr fun plan => ?_
      rw [step_discard, step_insertPlanned]
    · rw [step_discard, step_insertInstance]

/-- The log changes nothing. -/
theorem step_expandAll (strip : Bool) (T : Forest Block.Template) (i : Nat)
    (select : Block.Selection) (scope : NodeId) (verbatim : Bool) :
    (expandAll strip driver T i select scope verbatim).step =
      Block.expandAll strip driver T i select scope verbatim := by
  rw [← expandAllVia_resolveAnchor]
  induction T generalizing i select scope verbatim with
  | nil => rfl
  | cons t inner rest ihi ihr =>
    have hinner : Inner.step (expandAll strip driver inner 0) =
        expandAllVia Block.resolveAnchor strip driver inner 0 := by
      funext select scope verbatim
      exact ihi 0 select scope verbatim
    unfold expandAll expandAllVia
    simp only [step_bind, step_onlyIf, step_expandBody, ihr, hinner]
    split
    · simp only [expandOneVia, bind_assoc]
      rfl
    · simp only [removeOneVia, bind_assoc]
      rfl

end Erasure

end Logged

end WordTemplate
