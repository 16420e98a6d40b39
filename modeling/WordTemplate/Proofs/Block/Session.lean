import WordTemplate.Proofs.Binding.Session
import WordTemplate.Proofs.Binding.Step

/-!
# The calls of an expansion

`Acts` says of a step that it acts on a driver by a session, which comes to its end just if the step
succeeds. There is one rule for each way in which the steps of an expansion are put together.

* `acts_expandAll`: the expansion of blocks asks for plans of those only that are in no ignored
  region.
-/

namespace WordTemplate

open Xml Forest Binding

variable {σ α β : Type} {driver : Driver σ} {P Q : Directive → Prop} {pending : Pending}

/-- Whether a step acts on the driver by a session that begins with the calls that are pending. -/
def Acts {ε : Type} (driver : Driver σ) (P : Directive → Prop) (pending : Pending)
    (m : Step ε σ α) : Prop :=
  ∀ w, Runs m w (fun _ w' => ∃ calls, Session driver P pending true w.state calls w'.state)
    fun _ w' => ∃ calls, Session driver P pending false w.state calls w'.state

section Rules

variable {ε : Type} {m : Step ε σ α} {f : α → Step ε σ β}

theorem Acts.mono (h : Acts driver P pending m) (hPQ : ∀ d, P d → Q d) :
    Acts driver Q pending m := fun w =>
  (h w).mono (fun _ _ ⟨calls, hs⟩ => ⟨calls, hs.mono hPQ⟩) fun _ _ ⟨calls, hs⟩ => ⟨calls, hs.mono hPQ⟩

theorem Acts.bind (h : Acts driver P pending m) (hf : ∀ a, Acts driver P .free (f a)) :
    Acts driver P pending (m >>= f) := by
  intro w
  refine (h w).bind ?_
  rintro a w₁ ⟨calls, hs⟩
  exact (hf a w₁).mono (fun _ _ ⟨calls', hs'⟩ => ⟨_, hs.append hs'⟩)
    fun _ _ ⟨calls', hs'⟩ => ⟨_, hs.append hs'⟩

theorem Acts.discard (h : Acts driver P pending m) : Acts driver P pending (discard m) :=
  fun w => (h w).discard

/-- A collection without items. -/
theorem Acts.itemsDone {directive : Directive} {count : Nat} (h : Acts driver P .free m) :
    Acts driver P (.items directive count count) m := fun w =>
  (h w).mono (fun _ _ ⟨calls, hs⟩ => ⟨calls, .itemsDone hs⟩) fun _ _ ⟨calls, hs⟩ => ⟨calls, .itemsDone hs⟩

theorem acts_pure (a : α) : Acts driver P .free (pure a : Step ε σ α) :=
  fun _ => runs_pure ⟨[], .done⟩

theorem acts_throw (e : ε) : Acts driver P .free (throw e : Step ε σ α) :=
  fun _ => runs_throw ⟨[], .stopped⟩

theorem acts_document : Acts driver P .free (Step.document : Step ε σ Document) :=
  fun _ => runs_document ⟨[], .done⟩

theorem acts_change (g : Document → Document) : Acts driver P .free (Step.change g : Step ε σ Unit) :=
  fun _ => runs_change ⟨[], .done⟩

theorem acts_changeGet (g : Document → α × Document) :
    Acts driver P .free (Step.changeGet g : Step ε σ α) :=
  fun _ => runs_changeGet ⟨[], .done⟩

end Rules

theorem acts_substitute (n : NodeId) : Acts driver P .free (Block.ask (driver.substitute n)) := by
  intro w
  refine Runs.ask ?_
  unfold Runs
  cases hs : driver.substitute n w with
  | ok u w' => exact ⟨_, .substitute hs .done⟩
  | error e w' => exact ⟨_, .substituteFailed hs⟩

/-- What follows a plan begins with the items that it asks for. -/
theorem acts_plan {directive : Directive} {f : Expansion → Step Error σ α} (hP : P directive)
    (hf : ∀ plan : Expansion, Acts driver P (plan.pending directive) (f plan)) :
    Acts driver P .free (Block.ask (Step.onState (driver.plan directive)) >>= f) := by
  intro w
  refine Runs.bind (Q := fun plan w₁ => driver.plan directive w.state = .ok plan w₁.state)
    (Runs.ask (runs_onState (fun _ _ h => h) fun e s h => ⟨_, .planFailed hP h⟩)) ?_
  intro plan w₁ hp
  exact (hf plan w₁).mono (fun _ _ ⟨calls, hs⟩ => ⟨_, .plan hP hp hs⟩)
    fun _ _ ⟨calls, hs⟩ => ⟨_, .plan hP hp hs⟩

section Blocks

variable {inner : Block.Inner σ} {t : Block.Template} {verbatim : Bool}

theorem acts_resolveAnchor (scope : NodeId) :
    Acts driver P .free (Block.resolveAnchor t scope : Step Error σ NodeId) := by
  refine acts_document.bind fun d => ?_
  split
  · exact acts_pure _
  · exact acts_throw _

theorem acts_expandKeyword (keyword : String) (anchor : NodeId) :
    Acts driver P .free (Block.expandKeyword keyword anchor : Step Error σ Unit) := by
  unfold Block.expandKeyword
  split
  · exact acts_throw _
  · exact (acts_changeGet _).bind fun _ => acts_change _

theorem acts_instantiate (h : ∀ select scope, Acts driver P .free (inner select scope verbatim))
    (select : Block.Selection) :
    Acts driver P .free (Block.instantiate driver inner t verbatim select) := by
  unfold Block.instantiate
  refine (acts_changeGet _).bind fun fragment => (acts_change _).bind fun _ => ?_
  have hrest : Acts driver P .free (do
      inner select fragment verbatim
      Step.changeGet (·.takeChildren fragment)) :=
    (h select fragment).bind fun _ => acts_changeGet _
  split
  · exact (acts_substitute fragment).bind fun _ => hrest
  · exact hrest

theorem acts_insertInstance (h : ∀ select scope, Acts driver P .free (inner select scope verbatim))
    (select : Block.Selection) (cursor : NodeId) :
    Acts driver P .free (Block.insertInstance driver inner t verbatim select cursor) :=
  (acts_instantiate h select).bind fun _ => acts_changeGet _

/-- One item after another, from the one with number `i` on. -/
theorem acts_insertItems (h : ∀ select scope, Acts driver P .free (inner select scope false))
    (count : Nat) {i k : Nat} (hi : i + k = count) (cursor : NodeId) :
    Acts driver P (.items t.block.start.directive count i)
      ((List.range' i k).foldlM (Block.insertItem driver inner t count) cursor) := by
  induction k generalizing i cursor with
  | zero =>
    obtain rfl : i = count := hi
    exact (acts_pure cursor).itemsDone
  | succ k ih =>
    have hlt : i < count := by omega
    intro w
    rw [List.range'_succ, List.foldlM_cons, Block.insertItem]
    simp only [bind_assoc]
    refine Runs.bind (Q := fun _ w₁ => driver.enterItem t.block.start.directive i w.state =
      .ok () w₁.state) (Runs.ask (runs_onState (fun _ _ he => he)
        fun e s he => ⟨_, .itemRefused hlt he⟩)) ?_
    rintro - w₁ he
    refine Runs.bind (Q := fun _ w₂ => ∃ inner s₂, Session driver P .free true w₁.state inner s₂ ∧
      w₂.state = driver.leaveItem s₂) (Runs.thenLeave ((acts_instantiate h _ w₁).mono
        (fun _ w₂ ⟨calls, hs⟩ => ⟨calls, w₂.state, hs, rfl⟩)
        fun _ w₂ ⟨calls, hs⟩ => ⟨_, .itemFailed hlt he hs⟩)) ?_
    rintro nodes w₂ ⟨calls, s₂, hs, hw₂⟩
    refine Runs.bind (Q := fun _ w₃ => w₃.state = w₂.state) (runs_changeGet rfl) ?_
    intro cursor' w₃ hw₃
    have hstate : w₃.state = driver.leaveItem s₂ := hw₃.trans hw₂
    refine (ih (by omega) cursor' w₃).mono ?_ ?_
    · rintro _ _ ⟨calls', hs'⟩
      exact ⟨_, .item hlt he hs (hstate ▸ hs')⟩
    · rintro _ _ ⟨calls', hs'⟩
      exact ⟨_, .item hlt he hs (hstate ▸ hs')⟩

theorem acts_insertPlanned (h : ∀ select scope, Acts driver P .free (inner select scope false))
    (anchor : NodeId) (plan : Expansion) :
    Acts driver P (plan.pending t.block.start.directive)
      (Block.insertPlanned driver inner t anchor plan) := by
  match plan with
  | .branch choice => exact acts_insertInstance h _ anchor
  | .repeated 0 => exact (acts_insertInstance h _ anchor).itemsDone
  | .repeated (count + 1) =>
    have := acts_insertItems (t := t) h (count + 1) (Nat.zero_add _) anchor
    rwa [← List.range_eq_range'] at this

/-- The expansion of a block asks for its plan only if it is not in an ignored region. -/
theorem acts_expandOne (strip : Bool) (scope : NodeId)
    (hP : verbatim = false → t.kind = .collectionStart ∨ t.kind = .conditionStart →
      P t.block.start.directive)
    (h : ∀ select scope, Acts driver P .free
      (inner select scope (verbatim || t.kind = .ignoreStart))) :
    Acts driver P .free (Block.expandOne strip driver inner t scope verbatim) := by
  unfold Block.expandOne
  refine (acts_resolveAnchor scope).bind fun anchor => ?_
  dsimp only
  split
  · exact (acts_expandKeyword _ anchor).bind fun _ => acts_change _
  · split
    · next hplan =>
      simp only [Bool.and_eq_true, Bool.or_eq_true, decide_eq_true_eq, Bool.not_eq_true',
        Bool.or_eq_false_iff] at hplan
      obtain ⟨hkind, hverbatim, hignore⟩ := hplan
      rw [hverbatim, hignore] at h
      refine acts_plan (hP hverbatim hkind) fun plan => ?_
      exact (acts_insertPlanned h anchor plan).discard.bind fun _ => acts_change _
    · exact (acts_insertInstance h _ anchor).discard.bind fun _ => acts_change _

end Blocks

/-! ## Ignored regions -/

namespace Block

/-- The blocks that are not within ignored regions. -/
def outsideIgnored : Forest Template → List Template
  | .nil => []
  | .cons t inner rest =>
    t :: ((if t.kind = .ignoreStart then [] else outsideIgnored inner) ++ outsideIgnored rest)

/-- The blocks within ignored regions. -/
def withinIgnored : Forest Template → List Template
  | .nil => []
  | .cons t inner rest =>
    (if t.kind = .ignoreStart then inner.toList else withinIgnored inner) ++ withinIgnored rest

end Block

/-- Whether this is the directive of a collection or condition that is not within an ignored region. -/
def Planned (T : Forest Block.Template) (d : Directive) : Prop :=
  ∃ t ∈ Block.outsideIgnored T, (t.kind = .collectionStart ∨ t.kind = .conditionStart) ∧
    t.block.start.directive = d

theorem acts_expandAll (strip : Bool) (T : Forest Block.Template) (i : Nat)
    (select : Block.Selection) (scope : NodeId) (verbatim : Bool) :
    Acts driver (fun d => verbatim = false ∧ Planned T d) .free
      (Block.expandAll strip driver T i select scope verbatim) := by
  induction T generalizing i select scope verbatim with
  | nil => exact acts_pure ()
  | cons t inner rest ihi ihr =>
    unfold Block.expandAll
    have hrest : Acts driver (fun d => verbatim = false ∧ Planned (.cons t inner rest) d) .free
        (Block.expandAll strip driver rest (i + 1) select scope verbatim) := by
      refine (ihr (i + 1) select scope verbatim).mono ?_
      rintro d ⟨hv, u, hu, hd⟩
      exact ⟨hv, u, by simp [Block.outsideIgnored, hu], hd⟩
    split
    · refine (acts_expandOne strip scope (fun hv hkind => ?_) fun select scope => ?_).bind
        fun _ => hrest
      · exact ⟨hv, t, by simp [Block.outsideIgnored], hkind, rfl⟩
      · refine (ihi 0 select scope _).mono ?_
        rintro d ⟨hv, u, hu, hd⟩
        simp only [Bool.or_eq_false_iff, decide_eq_false_iff_not] at hv
        exact ⟨hv.1, u, by simp [Block.outsideIgnored, hv.2, hu], hd⟩
    · exact (acts_resolveAnchor scope).bind fun _ => (acts_change _).bind fun _ => hrest

end WordTemplate
