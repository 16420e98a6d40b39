import WordTemplate.Proofs.Binding.Substitution
import WordTemplate.Proofs.Block.Accepting
import WordTemplate.Proofs.Block.Failures
import WordTemplate.Proofs.Block.Nesting
import WordTemplate.Proofs.Processing.Checking

/-!
# Processing in spite of missing values

The driver of a model can be told to go on where the model has no answer. Then processing never fails
because of the model, and a template that is processed without failure otherwise is processed in the same
way. No item is ever missing: the items that are entered are those that the plan has counted.

* `ModelBinding.failsOnly`: how the driver of a model can fail.
* `ModelBinding.drivers_agreeUnless`: the two ways to deal with failures agree unless there is one.
* `process_skip_extends_fail`: both for whole runs.
-/

namespace WordTemplate

open Xml Binding

namespace Binding

/-! ## Failures of lookups -/

variable {scopes : Scopes} {e : Error}

theorem resolve_eq_error {path : List Char} (h : resolve scopes path = .error e) :
    ∃ path, e = .notFound path := by
  unfold resolve at h
  split at h
  · cases h
  · cases h
    exact ⟨_, rfl⟩

theorem eq_error_of_map {ε α β : Type} {f : α → β} {x : Except ε α} {e : ε}
    (h : x.map f = .error e) : x = .error e := by
  cases x with
  | ok a => cases h
  | error e' => cases h; rfl

theorem equals_eq_error {value : Json} {operand : List Char}
    (h : equals scopes value operand = .error e) : ∃ path, e = .notFound path := by
  unfold equals at h
  repeat' split at h
  all_goals first | cases h | skip
  exact resolve_eq_error (eq_error_of_map h)

theorem holds_eq_error {condition : List Char} (h : holds scopes condition = .error e) :
    ∃ path, e = .notFound path := by
  unfold holds at h
  split at h
  · next negated left right _ =>
    cases hvalue : resolve scopes left with
    | error e' =>
      rw [hvalue] at h
      cases h
      exact resolve_eq_error hvalue
    | ok value =>
      rw [hvalue] at h
      cases hequal : equals scopes value (Text.trim right) with
      | error e' =>
        simp only [bind, Except.bind, hequal] at h
        cases h
        exact equals_eq_error hequal
      | ok equal =>
        simp only [bind, Except.bind, hequal] at h
        cases h
  · exact resolve_eq_error (eq_error_of_map h)

theorem evaluate_eq_error {condition : String} (h : evaluate scopes condition = .error e) :
    ∃ path, e = .notFound path :=
  holds_eq_error (eq_error_of_map h)

namespace ModelBinding

variable {b : ModelBinding} {d : Directive}

/-! ## Failures of the driver of a model -/

/-- Whether an error can come from a driver that deals with errors in this way. Items are never
missing. -/
def Allows (onError : OnError) (e : Error) : Prop :=
  onError = .fail ∧ ∀ path index, e ≠ .noItem path index

theorem recover_eq_error {α : Type} {fallback : α} {result : Except Error α}
    (h : b.recover fallback result = .error e) : b.onError = .fail ∧ result = .error e := by
  unfold recover at h
  split at h
  · cases h
  · next hnot =>
    subst h
    cases hb : b.onError with
    | fail => exact ⟨rfl, rfl⟩
    | skip => exact absurd hb (hnot e rfl)

theorem render_eq_error (h : b.render scopes d = .error e) :
    ∀ path index, e ≠ .noItem path index := by
  unfold render at h
  cases hvalue : resolve scopes d.expression.toList with
  | error e' =>
    rw [hvalue] at h
    cases h
    obtain ⟨path, rfl⟩ := resolve_eq_error hvalue
    exact nofun
  | ok value =>
    simp only [hvalue, bind, Except.bind] at h
    repeat' split at h
    all_goals cases h
    all_goals exact nofun

theorem renderText_eq_error {text : String} (h : b.renderText scopes text = .error e) :
    Allows b.onError e := by
  unfold renderText at h
  split at h
  · cases h
  · obtain ⟨hfail, hrender⟩ := recover_eq_error (eq_error_of_map h)
    exact ⟨hfail, render_eq_error hrender⟩

theorem plan_eq_error (h : b.plan scopes d = .error e) : Allows b.onError e := by
  obtain ⟨hfail, h⟩ := recover_eq_error h
  refine ⟨hfail, ?_⟩
  suffices hpath : ∃ path, e = .notFound path by
    obtain ⟨path, rfl⟩ := hpath
    exact nofun
  split at h
  · exact resolve_eq_error (eq_error_of_map h)
  · exact evaluate_eq_error (eq_error_of_map h)
  · cases h

/-- A plan that counts items has the value of the collection to count them. -/
theorem exists_value_of_plan {count : Nat} (h : b.plan scopes d = .ok (.repeated count)) :
    ∃ value, resolve scopes d.expression.toList = .ok value ∧
      ((∃ items, value = .array items ∧ count = items.length) ∨
        (∀ items, value ≠ .array items) ∧ count = value.isTruthy.toNat) := by
  unfold plan recover at h
  split at h
  · cases h
  split at h
  · cases hvalue : resolve scopes d.expression.toList with
    | error e =>
      rw [hvalue] at h
      cases h
    | ok value =>
      rw [hvalue] at h
      refine ⟨value, rfl, ?_⟩
      simp only [Except.map, Except.ok.injEq] at h
      split at h
      · next items =>
        cases h
        exact .inl ⟨items, rfl, rfl⟩
      · next hnot =>
        cases h
        exact .inr ⟨hnot, rfl⟩
  · cases hholds : evaluate scopes d.expression with
    | error e =>
      rw [hholds] at h
      cases h
    | ok result =>
      rw [hholds] at h
      cases h
  · cases h

/-- Each item that a plan counts is there. -/
theorem exists_item_of_plan {count i : Nat} (h : b.plan scopes d = .ok (.repeated count))
    (hi : i < count) : ∃ item, b.item scopes d i = .ok item := by
  obtain ⟨value, hvalue, ⟨items, rfl, rfl⟩ | ⟨hnot, rfl⟩⟩ := exists_value_of_plan h
  · refine ⟨items[i], ?_⟩
    simp only [ModelBinding.item, hvalue, bind, Except.bind, List.getElem?_eq_getElem hi]
    rfl
  · refine ⟨value, ?_⟩
    -- What is no array counts as one item at most.
    obtain rfl : i = 0 := by
      have := Bool.toNat_le value.isTruthy
      omega
    simp only [ModelBinding.item, hvalue, bind, Except.bind]
    cases value with
    | array items => exact absurd rfl (hnot items)
    | _ => rfl

theorem driver_plan_eq (b : ModelBinding) (d : Directive) (s : Scopes) :
    b.driver.plan d s = answer (b.plan s d) s := rfl

theorem fillEach_eq_error {render : String → Except Error (Option String)} {ns : List NodeId}
    {doc doc' : Document} (h : fillEach render ns doc = .error e doc') :
    ∃ text, render text = .error e := by
  induction ns generalizing doc with
  | nil => cases h
  | cons n ns ih =>
    rw [fillEach] at h
    split at h
    · next hr =>
      cases h
      exact ⟨_, hr⟩
    · exact ih h
    · exact ih h

/-- The driver of a model fails only if it is told to, and never because an item is missing. -/
theorem failsOnly (b : ModelBinding) : FailsOnly b.driver (Allows b.onError) where
  toKeepsScope := b.keepsScope
  substitute {n w e w'} h := by
    have hfill : Step.onDocument (fillPlaceholders (b.renderText w.state) n) w = .error e w' := h
    rw [Step.onDocument, fillPlaceholders_eq] at hfill
    split at hfill
    · cases hfill
    · next hf =>
      cases hfill
      obtain ⟨text, hr⟩ := fillEach_eq_error hf
      exact renderText_eq_error hr
  plan {directive s e s'} h := by
    rw [driver_plan_eq] at h
    cases hp : b.plan s directive with
    | ok plan =>
      rw [hp] at h
      cases h
    | error e' =>
      rw [hp] at h
      cases h
      exact plan_eq_error hp
  enterItem {directive count i s e s'} hplan hi h := by
    obtain ⟨item, hitem⟩ := exists_item_of_plan (answer_eq_ok hplan).1 hi
    rw [enterItem_eq, hitem] at h
    cases h

/-! ## The two ways to deal with failures -/

/-- Whether an error is one of a driver. -/
def IsBinding (e : WordTemplate.Error) : Prop :=
  ∃ c, e = .binding c

theorem agreesUnless_ask {σ α : Type} {m m' : Step Error σ α}
    (h : ∀ w, m w = m' w ∨ ∃ e w', m w = .error e w') :
    AgreesUnless IsBinding (Block.ask m) (Block.ask m') := by
  intro w
  simp only [Block.ask, EStateM.adaptExcept]
  rcases h w with he | ⟨e, w', he⟩
  · rw [he]
    exact .inl rfl
  · rw [he]
    exact .inr ⟨_, w', ⟨e, rfl⟩, rfl⟩

theorem recover_fail_eq_or {α : Type} (b : ModelBinding) (fallback : α) (result : Except Error α) :
    { b with onError := .fail }.recover fallback result =
      { b with onError := .skip }.recover fallback result ∨
    ∃ e, { b with onError := .fail }.recover fallback result = .error e := by
  cases result with
  | ok a => exact .inl rfl
  | error e => exact .inr ⟨e, rfl⟩

theorem renderText_fail_eq_or (b : ModelBinding) (scopes : Scopes) (text : String) :
    { b with onError := .fail }.renderText scopes text =
      { b with onError := .skip }.renderText scopes text ∨
    ∃ e, { b with onError := .fail }.renderText scopes text = .error e := by
  unfold renderText
  split
  · exact .inl rfl
  · next d _ =>
    rcases recover_fail_eq_or b "" (b.render scopes d) with he | ⟨e, he⟩
    · exact .inl (congrArg (Except.map some) he)
    · exact .inr ⟨e, congrArg (Except.map some) he⟩

theorem fillEach_fail_eq_or (b : ModelBinding) (scopes : Scopes) (ns : List NodeId) (doc : Document) :
    fillEach ({ b with onError := .fail }.renderText scopes) ns doc =
      fillEach ({ b with onError := .skip }.renderText scopes) ns doc ∨
    ∃ e doc', fillEach ({ b with onError := .fail }.renderText scopes) ns doc = .error e doc' := by
  induction ns generalizing doc with
  | nil => exact .inl rfl
  | cons n ns ih =>
    rw [fillEach, fillEach]
    rcases renderText_fail_eq_or b scopes (doc.innerText n) with he | ⟨e, he⟩
    · rw [← he]
      cases { b with onError := .fail }.renderText scopes (doc.innerText n) with
      | error e => exact .inl rfl
      | ok value? =>
        cases value? with
        | none => exact ih doc
        | some value => exact ih (doc.writeValue n value)
    · rw [he]
      exact .inr ⟨e, doc, rfl⟩

/-- Without a failure it makes no difference how failures are dealt with. -/
theorem drivers_agreeUnless (b : ModelBinding) :
    DriversAgreeUnless IsBinding { b with onError := .fail }.driver
      { b with onError := .skip }.driver where
  substitute n := by
    refine agreesUnless_ask fun w => ?_
    show Step.onDocument (fillPlaceholders ({ b with onError := .fail }.renderText w.state) n) w =
      Step.onDocument (fillPlaceholders ({ b with onError := .skip }.renderText w.state) n) w ∨ _
    rw [Step.onDocument, Step.onDocument, fillPlaceholders_eq, fillPlaceholders_eq]
    rcases fillEach_fail_eq_or b w.state (w.document.placeholders n) w.document with he | ⟨e, d', he⟩
    · rw [he]
      exact .inl rfl
    · refine .inr ⟨e, { w with document := d' }, ?_⟩
      show Step.onDocument (fillPlaceholders ({ b with onError := .fail }.renderText w.state) n) w = _
      rw [Step.onDocument, fillPlaceholders_eq, he]
  plan d := by
    refine agreesUnless_ask fun w => ?_
    simp only [Step.onState, driver_plan_eq]
    unfold plan
    rcases recover_fail_eq_or b (Expansion.branch none) _ with he | ⟨e, he⟩
    · rw [he]
      exact .inl rfl
    · rw [he]
      exact .inr ⟨e, w, rfl⟩
  enterItem d i := by
    refine agreesUnless_ask fun w => ?_
    simp only [Step.onState, enterItem_eq]
    unfold item
    cases resolve w.state d.expression.toList with
    | error e => exact .inr ⟨e, w, rfl⟩
    | ok value =>
      simp only [bind, Except.bind]
      rcases recover_fail_eq_or b Json.null _ with he | ⟨e, he⟩
      · rw [he]
        exact .inl rfl
      · rw [he]
        exact .inr ⟨e, w, rfl⟩
  leaveItem := rfl

end ModelBinding

end Binding

/-! ## Failures before the expansion -/

section Reading

variable {σ : Type} {F : Binding.Error → Prop} {settings : Settings} {root : NodeId}

/-- Directives that do not go together are no failure of a driver. -/
theorem Block.nest_ne_binding {markers : List Marker} {c : Binding.Error} :
    Block.nest markers ≠ .error (.binding c) := by
  by_cases hms : Block.Sheltered markers
  · by_cases hd : Block.depth markers = 0
    · obtain ⟨B, hB, -⟩ := Block.exists_nest_eq hms hd
      simp [hB]
    · simp [Block.nest_of_depth_ne_zero hms hd]
  · obtain ⟨u, m, v, rfl, hu, hm, hd⟩ := Block.exists_first_of_not_sheltered hms
    simp [Block.nest_of_first hu hm hd]

theorem eq_error_or_of_bind {ε τ α β : Type} {m : EStateM ε τ α} {f : α → EStateM ε τ β} {s s' : τ}
    {e : ε} (h : (m >>= f) s = .error e s') :
    m s = .error e s' ∨ ∃ a s₁, m s = .ok a s₁ ∧ f a s₁ = .error e s' := by
  simp only [Bind.bind, EStateM.bind] at h
  split at h
  · next a s₁ hm => exact .inr ⟨a, s₁, hm, h⟩
  · next hm =>
    cases h
    exact .inl hm

/-- A block that cannot be placed is no failure of a driver. -/
theorem Block.placeAll_ne_binding {P : Forest (Nat × Block)} {d d' : Document} {c : Binding.Error} :
    Block.placeAll P d ≠ .error (.binding c) d' := by
  induction P generalizing d with
  | nil => exact nofun
  | cons b inner rest ihi ihr =>
    intro h
    rcases eq_error_or_of_bind h with h | ⟨p, d₁, -, h⟩
    · rw [Block.placeOne_eq_match] at h
      split at h <;> cases h
    rcases eq_error_or_of_bind h with h | ⟨I, d₂, -, h⟩
    · exact ihi h
    rcases eq_error_or_of_bind h with h | ⟨R, d₃, -, h⟩
    · exact ihr h
    · cases h

theorem steady_readBlocks : Steady F (readBlocks settings root : Step Error σ _) := by
  rintro ⟨d, s⟩
  rw [Runs, readBlocks_eq_match]
  cases hnest : Block.nest (prepare settings root d).1 with
  | error e =>
    rintro c rfl
    exact absurd hnest Block.nest_ne_binding
  | ok B =>
    dsimp only
    cases hplace : Block.placeAll (B.number 0) (prepare settings root d).2 with
    | error e d₂ =>
      rintro c rfl
      exact absurd hplace Block.placeAll_ne_binding
    | ok B' d₂ =>
      dsimp only
      cases hvalid : if settings.validate then Block.validate (Block.extractAll B' d₂).2
        (Block.extractAll B' d₂).1 else .ok () with
      | ok u => rfl
      | error e =>
        rintro c rfl
        split at hvalid
        · obtain ⟨id, directive, he⟩ := exists_misplaced_of_validate_eq_error hvalid
          cases he
        · cases hvalid

/-- Processing is steady if its driver fails only in the ways that are allowed. -/
theorem steady_process {driver : Driver σ} (hdriver : FailsOnly driver F) :
    Steady F (process settings driver) :=
  steady_document.bind fun _ => (steady_readBlocks.bind fun T =>
    (hdriver.steady_substitute _).bind fun _ => steady_expandAll hdriver _ T 0 .all _ false).bind
      fun _ => steady_change _

/-- Processing with drivers that agree. -/
theorem process_agreesUnless {X : Error → Prop} {driver driver' : Driver σ}
    (hdriver : DriversAgreeUnless X driver driver') :
    AgreesUnless X (process settings driver) (process settings driver') := by
  refine (AgreesUnless.refl _).bind fun d => AgreesUnless.bind ?_ fun _ => .refl _
  refine (AgreesUnless.refl _).bind fun T => (hdriver.substitute _).bind fun _ => ?_
  rw [← expandAllVia_resolveAnchor, ← expandAllVia_resolveAnchor]
  exact expandAllVia_agreesUnless (fun _ _ => .refl _) hdriver T 0 .all

end Reading

/-! ## Whole runs -/

/-- For every document, model and settings: a driver that goes on without an answer never makes
processing fail; what it does is what a driver that fails does, if this one is never without an answer;
and neither ever misses an item. -/
theorem process_skip_extends_fail (b : ModelBinding) (settings : Settings) (d : Document)
    (scopes : Scopes) :
    (∀ c w, process settings { b with onError := .skip }.driver ⟨d, scopes⟩ ≠ .error (.binding c) w) ∧
    (∀ w, process settings { b with onError := .fail }.driver ⟨d, scopes⟩ = .ok () w →
      process settings { b with onError := .skip }.driver ⟨d, scopes⟩ = .ok () w) ∧
    ∀ onError path index w, process settings { b with onError }.driver ⟨d, scopes⟩ ≠
      .error (.binding (.noItem path index)) w := by
  have hallows : ∀ onError c w,
      process settings { b with onError }.driver ⟨d, scopes⟩ = .error (.binding c) w →
        ModelBinding.Allows onError c := by
    intro onError c w hrun
    have hsteady : Runs (process settings { b with onError }.driver) ⟨d, scopes⟩ _ _ :=
      steady_process (ModelBinding.failsOnly { b with onError }) ⟨d, scopes⟩
    rw [Runs, hrun] at hsteady
    exact hsteady c rfl
  refine ⟨fun c w hrun => ?_, fun w hrun => ?_, fun onError path index w hrun => ?_⟩
  · exact absurd (hallows _ c w hrun).1 (by decide)
  · exact (process_agreesUnless b.drivers_agreeUnless).eq_of_ok hrun
  · exact (hallows _ _ w hrun).2 path index rfl

/-- A list of names, with a mark for those that are to be shown. -/
def namedItems : Document :=
  Word.documentOf (Word.paragraphOf "{{#N}}{{?shown}}{{name}}{{/}}{{/}}{{title}}")

theorem process_skip_extends_fail_namedItems :
    let settings : Settings := {}
    let b : ModelBinding := {}
    let s := Scopes.ofModel (.object [("title", .string "t"), ("N", .array
      [.object [("shown", .bool true), ("name", .string "n")], .object [("shown", .bool false)]])])
    ∃ w, process settings { b with onError := .fail }.driver ⟨namedItems, s⟩ = .ok () w ∧
      process settings { b with onError := .skip }.driver ⟨namedItems, s⟩ = .ok () w := by
  intro settings b s
  obtain ⟨_, w, hrun⟩ := exists_of_errorOf?_eq_none (r := process settings
    { b with onError := .fail }.driver ⟨namedItems, s⟩) (by decide +kernel)
  exact ⟨w, hrun, (process_skip_extends_fail b settings namedItems s).2.1 w hrun⟩

end WordTemplate
