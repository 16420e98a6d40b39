import WordTemplate.Proofs.Binding.Session
import WordTemplate.Proofs.Binding.Step

/-!
# Failures of a driver

An item is entered in the state in which the plan asked for it: whatever happens in between is undone
when the items before it are left. So if a driver enters every item that it has planned, as long as its
state is the same, then it never fails to enter an item while blocks are expanded.

`Steady` says of a step that it ends in the state in which it began, or fails in one of the ways that
are allowed. There is one rule for each way in which the steps of an expansion are put together.

* `steady_expandAll`: the expansion of blocks is steady.
-/

namespace WordTemplate

open Xml Forest Binding

variable {σ α β : Type} {F : Binding.Error → Prop}

/-- Whether a driver fails only as `F` says, if it is asked to enter an item in the state in which it
planned this item. -/
structure FailsOnly (driver : Driver σ) (F : Binding.Error → Prop) : Prop extends driver.KeepsScope where
  substitute : ∀ {n w e w'}, driver.substitute n w = .error e w' → F e
  plan : ∀ {directive s e s'}, driver.plan directive s = .error e s' → F e
  enterItem : ∀ {directive count i s e s'}, driver.plan directive s = .ok (.repeated count) s →
    i < count → driver.enterItem directive i s = .error e s' → F e

/-- Whether a step ends in the state in which it began, or fails with an error that comes from a driver
only if `F` allows it. -/
def Steady (F : Binding.Error → Prop) (m : Step Error σ α) : Prop :=
  ∀ w, Runs m w (fun _ w' => w'.state = w.state) fun e _ => ∀ c, e = .binding c → F c

/-! ## Rules -/

section Rules

variable {m : Step Error σ α} {f : α → Step Error σ β}

theorem Steady.bind (h : Steady F m) (hf : ∀ a, Steady F (f a)) : Steady F (m >>= f) := fun w =>
  (h w).bind fun a w₁ hw₁ => (hf a w₁).mono (fun _ _ hw₂ => hw₂.trans hw₁) fun _ _ he => he

theorem Steady.discard (h : Steady F m) : Steady F (discard m) :=
  fun w => (h w).discard

theorem steady_pure (a : α) : Steady F (pure a : Step Error σ α) :=
  fun _ => runs_pure rfl

theorem steady_throw {e : Error} (he : ∀ c, e ≠ .binding c) :
    Steady F (throw e : Step Error σ α) :=
  fun _ => runs_throw fun c hc => absurd hc (he c)

theorem steady_document : Steady F (Step.document : Step Error σ Document) :=
  fun _ => runs_document rfl

theorem steady_change (g : Document → Document) : Steady F (Step.change g : Step Error σ Unit) :=
  fun _ => runs_change rfl

theorem steady_changeGet (g : Document → α × Document) :
    Steady F (Step.changeGet g : Step Error σ α) :=
  fun _ => runs_changeGet rfl

end Rules

/-! ## Expansions -/

section Blocks

variable {driver : Driver σ} {inner : Block.Inner σ} {t : Block.Template} {verbatim : Bool}

theorem FailsOnly.steady_substitute (hdriver : FailsOnly driver F) (n : NodeId) :
    Steady F (Block.ask (driver.substitute n)) := by
  intro w
  refine Runs.ask ?_
  unfold Runs
  cases hs : driver.substitute n w with
  | ok u w' => exact hdriver.substitute_ok hs
  | error e w' => rintro c ⟨⟩; exact hdriver.substitute hs

theorem steady_resolveAnchor (scope : NodeId) :
    Steady F (Block.resolveAnchor t scope : Step Error σ NodeId) := by
  refine steady_document.bind fun d => ?_
  split
  · exact steady_pure _
  · exact steady_throw nofun

theorem steady_expandKeyword (keyword : String) (anchor : NodeId) :
    Steady F (Block.expandKeyword keyword anchor : Step Error σ Unit) := by
  unfold Block.expandKeyword
  split
  · exact steady_throw nofun
  · exact (steady_changeGet _).bind fun _ => steady_change _

theorem steady_instantiate (hdriver : FailsOnly driver F)
    (h : ∀ select scope b, Steady F (inner select scope b)) (select : Block.Selection) :
    Steady F (Block.instantiate driver inner t verbatim select) := by
  unfold Block.instantiate
  refine (steady_changeGet _).bind fun fragment => (steady_change _).bind fun _ => ?_
  split
  · exact (hdriver.steady_substitute fragment).bind fun _ =>
      (h _ _ _).bind fun _ => steady_changeGet _
  · exact (h _ _ _).bind fun _ => steady_changeGet _

theorem steady_insertInstance (hdriver : FailsOnly driver F)
    (h : ∀ select scope b, Steady F (inner select scope b)) (select : Block.Selection)
    (cursor : NodeId) : Steady F (Block.insertInstance driver inner t verbatim select cursor) :=
  (steady_instantiate hdriver h select).bind fun _ => steady_changeGet _

/-- An item that has been planned is entered and left again. -/
theorem runs_insertItem_steady (hdriver : FailsOnly driver F)
    (h : ∀ select scope b, Steady F (inner select scope b)) {count index : Nat} (cursor : NodeId)
    {w : Workspace σ} (hindex : index < count)
    (hplan : driver.plan t.block.start.directive w.state = .ok (.repeated count) w.state) :
    Runs (Block.insertItem driver inner t count cursor index) w (fun _ w' => w'.state = w.state)
      fun e _ => ∀ c, e = .binding c → F c := by
  unfold Block.insertItem
  refine Runs.bind (Q := fun _ w₁ => driver.enterItem t.block.start.directive index w.state =
    .ok () w₁.state) (Runs.ask (runs_onState (fun _ _ he => he) ?_)) ?_
  · rintro e s he c ⟨⟩
    exact hdriver.enterItem hplan hindex he
  rintro - w₁ he
  refine Runs.bind (Q := fun _ w₂ => w₂.state = w.state) (Runs.thenLeave
    ((steady_instantiate hdriver h _ w₁).mono (fun _ w₂ hw₂ => ?_) fun _ _ he => he))
    fun _ w₂ hw₂ => runs_changeGet hw₂
  show driver.leaveItem w₂.state = w.state
  rw [hw₂]
  exact hdriver.leaveItem he

/-- What a plan asks for, in the state in which it was made. -/
theorem runs_insertPlanned_steady (hdriver : FailsOnly driver F)
    (h : ∀ select scope b, Steady F (inner select scope b)) (anchor : NodeId) {plan : Expansion}
    {w : Workspace σ} (hplan : driver.plan t.block.start.directive w.state = .ok plan w.state) :
    Runs (Block.insertPlanned driver inner t anchor plan) w (fun _ w' => w'.state = w.state)
      fun e _ => ∀ c, e = .binding c → F c := by
  match plan with
  | .branch choice => exact steady_insertInstance hdriver h _ anchor w
  | .repeated 0 => exact steady_insertInstance hdriver h _ anchor w
  | .repeated (count + 1) =>
    refine runs_foldlM (fun _ _ w' => w'.state = w.state) _ rfl ?_
    intro u index v cursor w' hl hw'
    have hindex : index < count + 1 := List.mem_range.mp (hl ▸ by simp)
    exact (runs_insertItem_steady hdriver h cursor hindex (hw' ▸ hplan)).mono
      (fun _ _ hw₂ => hw₂.trans hw') fun _ _ he => he

theorem steady_expandOne (hdriver : FailsOnly driver F)
    (h : ∀ select scope b, Steady F (inner select scope b)) (strip : Bool) (scope : NodeId) :
    Steady F (Block.expandOne strip driver inner t scope verbatim) := by
  unfold Block.expandOne
  refine (steady_resolveAnchor scope).bind fun anchor => ?_
  dsimp only
  split
  · exact (steady_expandKeyword _ anchor).bind fun _ => steady_change _
  split
  · intro w
    refine Runs.bind (Q := fun plan w₁ => w₁.state = w.state ∧
      driver.plan t.block.start.directive w.state = .ok plan w.state)
      (Runs.ask (runs_onState (fun plan s hp => ?_) fun e s hp c hc => ?_)) ?_
    · have hs := hdriver.plan_ok hp
      exact ⟨hs, hs ▸ hp⟩
    · cases hc
      exact hdriver.plan hp
    · rintro plan w₁ ⟨hw₁, hp⟩
      rw [← hw₁] at hp ⊢
      exact (runs_insertPlanned_steady hdriver h anchor hp).discard.bind
        fun _ w₂ hw₂ => runs_change hw₂
  · exact (steady_insertInstance hdriver h _ anchor).discard.bind fun _ => steady_change _

theorem steady_expandAll (hdriver : FailsOnly driver F) (strip : Bool) (T : Forest Block.Template)
    (i : Nat) (select : Block.Selection) (scope : NodeId) (verbatim : Bool) :
    Steady F (Block.expandAll strip driver T i select scope verbatim) := by
  induction T generalizing i select scope verbatim with
  | nil => exact steady_pure ()
  | cons t inner rest ihi ihr =>
    unfold Block.expandAll
    split
    · exact (steady_expandOne hdriver (ihi 0) strip scope).bind fun _ => ihr _ _ _ _
    · exact (steady_resolveAnchor scope).bind fun _ => (steady_change _).bind fun _ => ihr _ _ _ _

end Blocks

end WordTemplate
