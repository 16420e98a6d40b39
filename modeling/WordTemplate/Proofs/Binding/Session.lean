import WordTemplate.Binding.Model

/-!
# Sessions of a driver

A session is what a driver goes through while a template is processed: its calls in order, with what
it answered, and its states before and after. `Session` is the grammar of sessions. Items are only
entered after a plan that asks for them, one after another, and every item that was entered is left,
even if processing fails in between.

* `Session.append`: one session after another.
* `Session.balanced`: every item that is entered is left once.
* `Session.of_recorded`: the log of a recorded driver is its session.
* `Driver.KeepsScope.eq_of_session`: a driver whose state only says what has been entered ends in the
  state in which it began.
-/

namespace WordTemplate.Binding

open Xml

variable {σ : Type}

/-- What is called next: anything, or the items of the collection that a directive opens, of which
those before `next` are done. -/
inductive Pending where
  | free
  | items (directive : Directive) (count next : Nat)

/-- What is to be called after a plan for the block that `d` opens. -/
def Expansion.pending (d : Directive) : Expansion → Pending
  | .repeated count => .items d count 0
  | .branch _ => .free

/-- Whether a driver, called for plans of directives with `P` only, gets from one state to another by
these calls. `ended` says whether the session came to its end; otherwise processing failed after the
last call, and all that followed was to leave the items that had been entered. -/
inductive Session (driver : Driver σ) (P : Directive → Prop) :
    Pending → (ended : Bool) → σ → List Call → σ → Prop where
  | done {s : σ} : Session driver P .free true s [] s
  /-- Processing fails between two calls. -/
  | stopped {s : σ} : Session driver P .free false s [] s
  | substitute {ended : Bool} {n : NodeId} {d d' : Document} {s s₁ s' : σ} {calls : List Call} :
      driver.substitute n ⟨d, s⟩ = .ok () ⟨d', s₁⟩ → Session driver P .free ended s₁ calls s' →
      Session driver P .free ended s (.substitute n d d' (.ok ()) :: calls) s'
  | substituteFailed {n : NodeId} {d d' : Document} {s s' : σ} {e : Error} :
      driver.substitute n ⟨d, s⟩ = .error e ⟨d', s'⟩ →
      Session driver P .free false s [.substitute n d d' (.error e)] s'
  | plan {ended : Bool} {directive : Directive} {plan : Expansion} {s s₁ s' : σ}
      {calls : List Call} : P directive → driver.plan directive s = .ok plan s₁ →
      Session driver P (plan.pending directive) ended s₁ calls s' →
      Session driver P .free ended s (.plan directive (.ok plan) :: calls) s'
  | planFailed {directive : Directive} {s s' : σ} {e : Error} : P directive →
      driver.plan directive s = .error e s' →
      Session driver P .free false s [.plan directive (.error e)] s'
  | itemsDone {ended : Bool} {directive : Directive} {count : Nat} {s s' : σ} {calls : List Call} :
      Session driver P .free ended s calls s' →
      Session driver P (.items directive count count) ended s calls s'
  | item {ended : Bool} {directive : Directive} {count i : Nat} {s s₁ s₂ s' : σ}
      {inner calls : List Call} : i < count → driver.enterItem directive i s = .ok () s₁ →
      Session driver P .free true s₁ inner s₂ →
      Session driver P (.items directive count (i + 1)) ended (driver.leaveItem s₂) calls s' →
      Session driver P (.items directive count i) ended s
        (.enterItem directive i (.ok ()) :: (inner ++ .leaveItem :: calls)) s'
  /-- Processing fails while an item is current. -/
  | itemFailed {directive : Directive} {count i : Nat} {s s₁ s₂ : σ} {inner : List Call} :
      i < count → driver.enterItem directive i s = .ok () s₁ →
      Session driver P .free false s₁ inner s₂ →
      Session driver P (.items directive count i) false s
        (.enterItem directive i (.ok ()) :: (inner ++ [.leaveItem])) (driver.leaveItem s₂)
  /-- An item cannot be entered. -/
  | itemRefused {directive : Directive} {count i : Nat} {s s' : σ} {e : Error} : i < count →
      driver.enterItem directive i s = .error e s' →
      Session driver P (.items directive count i) false s [.enterItem directive i (.error e)] s'

section Session

variable {driver : Driver σ} {P Q : Directive → Prop} {pending : Pending} {ended : Bool}
  {s s' s'' : σ} {calls calls' : List Call}

theorem Session.append (h : Session driver P pending true s calls s')
    (h' : Session driver P .free ended s' calls' s'') :
    Session driver P pending ended s (calls ++ calls') s'' := by
  generalize ht : true = b at h
  induction h with
  | done => exact h'
  | stopped | substituteFailed | planFailed | itemFailed | itemRefused => cases ht
  | substitute hs _ ih => exact .substitute hs (ih h' ht)
  | plan hP hp _ ih => exact .plan hP hp (ih h' ht)
  | itemsDone _ ih => exact .itemsDone (ih h' ht)
  | item hi he hin _ _ ih =>
    rw [List.cons_append, List.append_assoc, List.cons_append]
    exact .item hi he hin (ih h' ht)

theorem Session.mono (h : Session driver P pending ended s calls s') (hPQ : ∀ d, P d → Q d) :
    Session driver Q pending ended s calls s' := by
  induction h with
  | done => exact .done
  | stopped => exact .stopped
  | substitute hs _ ih => exact .substitute hs ih
  | substituteFailed hs => exact .substituteFailed hs
  | plan hP hp _ ih => exact .plan (hPQ _ hP) hp ih
  | planFailed hP hp => exact .planFailed (hPQ _ hP) hp
  | itemsDone _ ih => exact .itemsDone ih
  | item hi he _ _ ihin ih => exact .item hi he ihin ih
  | itemFailed hi he _ ihin => exact .itemFailed hi he ihin
  | itemRefused hi he => exact .itemRefused hi he

/-- Plans are only asked for directives with `P`. -/
theorem Session.of_plan_mem {d : Directive} {outcome : Except Error Expansion}
    (h : Session driver P pending ended s calls s') (hd : .plan d outcome ∈ calls) : P d := by
  induction h with
  | done | stopped => cases hd
  | substitute _ _ ih => exact ih (List.mem_of_ne_of_mem (by simp) hd)
  | substituteFailed => simp at hd
  | plan hP _ _ ih =>
    rcases List.mem_cons.mp hd with he | hd
    · cases he
      exact hP
    · exact ih hd
  | planFailed hP _ =>
    cases List.mem_singleton.mp hd
    exact hP
  | itemsDone _ ih => exact ih hd
  | item _ _ _ _ ihin ih =>
    simp only [List.mem_cons, List.mem_append, reduceCtorEq, false_or] at hd
    exact hd.elim ihin ih
  | itemFailed _ _ _ ihin =>
    simp only [List.mem_cons, List.mem_append, reduceCtorEq, List.not_mem_nil, or_false,
      false_or] at hd
    exact ihin hd
  | itemRefused => simp at hd

/-! ## Entering and leaving -/

/-- Whether this call made an item the current one. -/
def Call.enters : Call → Bool
  | .enterItem _ _ (.ok ()) => true
  | _ => false

/-- Whether every item that was entered is left by one later call, the last one first, and none is
left otherwise. -/
inductive Balanced : List Call → Prop where
  | nil : Balanced []
  | other {call : Call} {calls : List Call} : call.enters = false → call ≠ .leaveItem →
      Balanced calls → Balanced (call :: calls)
  | item {call : Call} {inner calls : List Call} : call.enters = true → Balanced inner →
      Balanced calls → Balanced (call :: (inner ++ .leaveItem :: calls))

theorem Session.balanced (h : Session driver P pending ended s calls s') : Balanced calls := by
  induction h with
  | done | stopped => exact .nil
  | substitute _ _ ih | plan _ _ _ ih => exact .other rfl (by simp) ih
  | substituteFailed | planFailed | itemRefused => exact .other rfl (by simp) .nil
  | itemsDone _ ih => exact ih
  | item _ _ _ _ ihin ih => exact .item rfl ihin ih
  | itemFailed _ _ _ ihin => exact .item rfl ihin .nil

/-! ## Recorded drivers -/

/-- A recorded step that succeeds does what the step does, and adds its call to the log. -/
theorem recording_eq_ok {ε α : Type} {step : EStateM ε σ α} {call : Except ε α → σ → Call} {a : α}
    {t t' : σ × List Call} (h : recording step call t = .ok a t') :
    step t.1 = .ok a t'.1 ∧ t'.2 = t.2 ++ [call (.ok a) t'.1] := by
  simp only [recording] at h
  split at h
  · next hs =>
    cases h
    exact ⟨hs, rfl⟩
  · cases h

theorem recording_eq_error {ε α : Type} {step : EStateM ε σ α} {call : Except ε α → σ → Call} {e : ε}
    {t t' : σ × List Call} (h : recording step call t = .error e t') :
    step t.1 = .error e t'.1 ∧ t'.2 = t.2 ++ [call (.error e) t'.1] := by
  simp only [recording] at h
  split at h
  · cases h
  · next hs =>
    cases h
    exact ⟨hs, rfl⟩

theorem recorded_plan (directive : Directive) : driver.recorded.plan directive =
    recording (driver.plan directive) fun outcome _ => .plan directive outcome := rfl

theorem recorded_enterItem (directive : Directive) (i : Nat) :
    driver.recorded.enterItem directive i =
      recording (driver.enterItem directive i) fun outcome _ => .enterItem directive i outcome := rfl

section Substitute

variable {n : NodeId} {d d' : Document} {t t' : σ × List Call}

theorem recorded_substitute_eq_ok
    (h : driver.recorded.substitute n ⟨d, t⟩ = .ok () ⟨d', t'⟩) :
    driver.substitute n ⟨d, t.1⟩ = .ok () ⟨d', t'.1⟩ ∧
      t'.2 = t.2 ++ [.substitute n d d' (.ok ())] := by
  simp only [Driver.recorded] at h
  split at h
  · next a inner hs =>
    obtain ⟨hs, hlog⟩ := recording_eq_ok hs
    cases h
    exact ⟨hs, hlog⟩
  · cases h

theorem recorded_substitute_eq_error {e : Error}
    (h : driver.recorded.substitute n ⟨d, t⟩ = .error e ⟨d', t'⟩) :
    driver.substitute n ⟨d, t.1⟩ = .error e ⟨d', t'.1⟩ ∧
      t'.2 = t.2 ++ [.substitute n d d' (.error e)] := by
  simp only [Driver.recorded] at h
  split at h
  · cases h
  · next e inner hs =>
    obtain ⟨hs, hlog⟩ := recording_eq_error hs
    cases h
    exact ⟨hs, hlog⟩

end Substitute

/-- The log of a recorded driver grows by the calls of a session of the driver itself. -/
theorem Session.of_recorded {t t' : σ × List Call}
    (h : Session driver.recorded P pending ended t calls t') :
    Session driver P pending ended t.1 calls t'.1 ∧ t'.2 = t.2 ++ calls := by
  induction h with
  | done => exact ⟨.done, by simp⟩
  | stopped => exact ⟨.stopped, by simp⟩
  | substitute hs _ ih =>
    obtain ⟨hs, hlog⟩ := recorded_substitute_eq_ok hs
    exact ⟨.substitute hs ih.1, by simp [ih.2, hlog]⟩
  | substituteFailed hs =>
    obtain ⟨hs, hlog⟩ := recorded_substitute_eq_error hs
    exact ⟨.substituteFailed hs, hlog⟩
  | plan hP hp _ ih =>
    rw [recorded_plan] at hp
    obtain ⟨hp, hlog⟩ := recording_eq_ok hp
    exact ⟨.plan hP hp ih.1, by simp [ih.2, hlog]⟩
  | planFailed hP hp =>
    rw [recorded_plan] at hp
    obtain ⟨hp, hlog⟩ := recording_eq_error hp
    exact ⟨.planFailed hP hp, hlog⟩
  | itemsDone _ ih => exact ⟨.itemsDone ih.1, ih.2⟩
  | item hi he _ _ ihin ih =>
    rw [recorded_enterItem] at he
    obtain ⟨he, hlog⟩ := recording_eq_ok he
    refine ⟨.item hi he ihin.1 ih.1, ?_⟩
    simp only [ih.2, Driver.recorded, ihin.2, hlog, List.append_assoc, List.cons_append,
      List.nil_append]
  | itemFailed hi he _ ihin =>
    rw [recorded_enterItem] at he
    obtain ⟨he, hlog⟩ := recording_eq_ok he
    refine ⟨.itemFailed hi he ihin.1, ?_⟩
    simp only [Driver.recorded, ihin.2, hlog, List.append_assoc, List.cons_append, List.nil_append]
  | itemRefused hi he =>
    rw [recorded_enterItem] at he
    obtain ⟨he, hlog⟩ := recording_eq_error he
    exact ⟨.itemRefused hi he, hlog⟩

/-! ## Drivers that only keep what has been entered -/

/-- Whether the state of a driver changes only when an item is entered, and leaving the item undoes
that. -/
structure Driver.KeepsScope (driver : Driver σ) : Prop where
  substitute_ok : ∀ {n d d' s s'}, driver.substitute n ⟨d, s⟩ = .ok () ⟨d', s'⟩ → s' = s
  substitute_error : ∀ {n d d' s s' e}, driver.substitute n ⟨d, s⟩ = .error e ⟨d', s'⟩ → s' = s
  plan_ok : ∀ {directive plan s s'}, driver.plan directive s = .ok plan s' → s' = s
  plan_error : ∀ {directive s s' e}, driver.plan directive s = .error e s' → s' = s
  enterItem_error : ∀ {directive i s s' e},
    driver.enterItem directive i s = .error e s' → s' = s
  leaveItem : ∀ {directive i s s'},
    driver.enterItem directive i s = .ok () s' → driver.leaveItem s' = s

/-- Such a driver ends every session in the state in which it began. -/
theorem Driver.KeepsScope.eq_of_session (hdriver : driver.KeepsScope)
    (h : Session driver P pending ended s calls s') : s' = s := by
  induction h with
  | done | stopped => rfl
  | substitute hs _ ih => exact ih.trans (hdriver.substitute_ok hs)
  | substituteFailed hs => exact hdriver.substitute_error hs
  | plan _ hp _ ih => exact ih.trans (hdriver.plan_ok hp)
  | planFailed _ hp => exact hdriver.plan_error hp
  | itemsDone _ ih => exact ih
  | item _ he _ _ ihin ih => exact ih.trans (ihin ▸ hdriver.leaveItem he)
  | itemFailed _ he _ ihin => exact ihin ▸ hdriver.leaveItem he
  | itemRefused _ he => exact hdriver.enterItem_error he

end Session

/-! ## The driver of a model -/

theorem answer_eq_ok {α : Type} {result : Except Error α} {a : α} {s s' : σ}
    (h : ModelBinding.answer result s = .ok a s') : result = .ok a ∧ s' = s := by
  cases result with
  | ok a' =>
    cases h
    exact ⟨rfl, rfl⟩
  | error e => cases h

theorem answer_eq_error {α : Type} {result : Except Error α} {e : Error} {s s' : σ}
    (h : ModelBinding.answer result s = .error e s') : s' = s := by
  cases result with
  | ok a => cases h
  | error e => cases h; rfl

theorem onDocument_eq_ok {ε α : Type} {step : EStateM ε Document α} {a : α} {w w' : Workspace σ}
    (h : Step.onDocument step w = .ok a w') : w'.state = w.state := by
  simp only [Step.onDocument] at h
  split at h
  · cases h; rfl
  · cases h

theorem onDocument_eq_error {ε α : Type} {step : EStateM ε Document α} {e : ε} {w w' : Workspace σ}
    (h : Step.onDocument step w = .error e w') : w'.state = w.state := by
  simp only [Step.onDocument] at h
  split at h
  · cases h
  · cases h; rfl

/-- What entering an item does to the scopes. -/
theorem ModelBinding.enterItem_eq (b : ModelBinding) (directive : Directive) (i : Nat)
    (s : Scopes) : b.driver.enterItem directive i s =
      match b.item s directive i with
      | .ok item => .ok () (s.push item)
      | .error e => .error e s := by
  show EStateM.bind (answer (b.item s directive i)) _ s = _
  cases b.item s directive i <;> rfl

/-- The driver of a model has no state but its scopes. -/
theorem ModelBinding.keepsScope (b : ModelBinding) : b.driver.KeepsScope where
  substitute_ok h := onDocument_eq_ok h
  substitute_error h := onDocument_eq_error h
  plan_ok h := (answer_eq_ok h).2
  plan_error h := answer_eq_error h
  enterItem_error {directive i s s' e} h := by
    rw [enterItem_eq] at h
    split at h
    · cases h
    · cases h; rfl
  leaveItem {directive i s s'} h := by
    rw [enterItem_eq] at h
    split at h
    · cases h
      exact Scopes.pop_push ..
    · cases h

end WordTemplate.Binding
