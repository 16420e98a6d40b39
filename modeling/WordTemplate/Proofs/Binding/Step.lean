import WordTemplate.Block.Expansion

/-!
# Runs of steps

`Runs m w Q E` says how the step `m` ends from the workspace `w`: as `Q` says if it succeeds, and as
`E` says if it fails. There is one rule for each way in which steps are put together.
-/

namespace WordTemplate

open Binding

variable {ε σ α β : Type} {w : Workspace σ}

/-- Whether a step from `w` ends as `Q` says if it succeeds, and as `E` says if it fails. -/
def Runs (m : Step ε σ α) (w : Workspace σ) (Q : α → Workspace σ → Prop)
    (E : ε → Workspace σ → Prop) : Prop :=
  match m w with
  | .ok a w => Q a w
  | .error e w => E e w

section Runs

variable {m : Step ε σ α} {f : α → Step ε σ β} {Q Q' : α → Workspace σ → Prop}
  {R : β → Workspace σ → Prop} {E E' : ε → Workspace σ → Prop}

theorem Runs.mono (h : Runs m w Q E) (hQ : ∀ a w', Q a w' → Q' a w')
    (hE : ∀ e w', E e w' → E' e w') : Runs m w Q' E' := by
  unfold Runs at h ⊢
  split
  · next he =>
    rw [he] at h
    exact hQ _ _ h
  · next he =>
    rw [he] at h
    exact hE _ _ h

theorem Runs.and (h : Runs m w Q E) (h' : Runs m w Q' E') :
    Runs m w (fun a w' => Q a w' ∧ Q' a w') E := by
  unfold Runs at *
  split at h <;> simp_all

theorem Runs.bind (h : Runs m w Q E) (hf : ∀ a w', Q a w' → Runs (f a) w' R E) :
    Runs (m >>= f) w R E := by
  unfold Runs at h ⊢
  simp only [Bind.bind, EStateM.bind]
  cases hm : m w with
  | ok a w' =>
    rw [hm] at h
    exact hf a w' h
  | error e w' =>
    rw [hm] at h
    exact h

theorem Runs.discard {Q : Workspace σ → Prop} (h : Runs m w (fun _ => Q) E) :
    Runs (discard m) w (fun _ => Q) E := by
  rw [Functor.discard, Functor.mapConst]
  exact h.bind fun _ _ hQ => hQ

theorem runs_pure {a : α} (h : Q a w) : Runs (pure a : Step ε σ α) w Q E :=
  h

theorem runs_throw {e : ε} (h : E e w) : Runs (throw e : Step ε σ α) w Q E :=
  h

theorem runs_document {R : Xml.Document → Workspace σ → Prop} (h : R w.document w) :
    Runs (Step.document : Step ε σ Xml.Document) w R E :=
  h

theorem runs_change {R : Unit → Workspace σ → Prop} {f : Xml.Document → Xml.Document}
    (h : R () { w with document := f w.document }) : Runs (Step.change f : Step ε σ Unit) w R E :=
  h

theorem runs_changeGet {f : Xml.Document → α × Xml.Document}
    (h : Q (f w.document).1 { w with document := (f w.document).2 }) :
    Runs (Step.changeGet f : Step ε σ α) w Q E :=
  h

/-- A step of the driver's state alone. -/
theorem runs_onState {step : EStateM ε σ α}
    (hok : ∀ a s, step w.state = .ok a s → Q a { w with state := s })
    (herror : ∀ e s, step w.state = .error e s → E e { w with state := s }) :
    Runs (Step.onState step) w Q E := by
  unfold Runs Step.onState
  cases hs : step w.state with
  | ok a s => exact hok a s hs
  | error e s => exact herror e s hs

theorem Runs.ask {m : Step Binding.Error σ α} {E : Error → Workspace σ → Prop}
    (h : Runs m w Q fun e w' => E (.binding e) w') : Runs (Block.ask m) w Q E := by
  unfold Runs at h ⊢
  simp only [Block.ask, EStateM.adaptExcept]
  cases hm : m w with
  | ok a w' =>
    rw [hm] at h
    exact h
  | error e w' =>
    rw [hm] at h
    exact h

theorem Runs.thenLeave {m : Step Error σ α} {E : Error → Workspace σ → Prop} {leave : σ → σ}
    (h : Runs m w (fun a w' => Q a { w' with state := leave w'.state })
      fun e w' => E e { w' with state := leave w'.state }) :
    Runs (Block.thenLeave m leave) w Q E := by
  unfold Runs at h ⊢
  simp only [Block.thenLeave]
  cases hm : m w with
  | ok a w' =>
    rw [hm] at h
    exact h
  | error e w' =>
    rw [hm] at h
    exact h

end Runs

/-- Steps for the members of a list, one after another. `I` holds before the first one, with the
members that are done and those still to come, and after each one. -/
theorem runs_foldlM {γ : Type} {f : α → γ → Step ε σ α} {E : ε → Workspace σ → Prop}
    (I : List γ → α → Workspace σ → Prop) (l : List γ) {a : α} (h : I [] a w)
    (hstep : ∀ u x v a w', l = u ++ x :: v → I u a w' → Runs (f a x) w' (I (u ++ [x])) E) :
    Runs (l.foldlM f a) w (I l) E := by
  suffices key : ∀ (v u : List γ) (a : α) (w' : Workspace σ), l = u ++ v → I u a w' →
      Runs (v.foldlM f a) w' (I l) E from key l [] a w rfl h
  intro v
  induction v with
  | nil =>
    intro u a w' hl hu
    rw [List.append_nil] at hl
    exact hl ▸ hu
  | cons x v ih =>
    intro u a w' hl hu
    rw [List.foldlM_cons]
    exact (hstep u x v a w' hl hu).bind fun b w₂ hb => ih (u ++ [x]) b w₂ (by simpa using hl) hb

end WordTemplate
