import WordTemplate.Proofs.Block.Soundness

/-!
# Expansions compared

Two expansions of the same blocks may differ in how anchors are looked up and in the driver. If these
parts agree unless they fail in a certain way, so do the expansions. `AgreesUnless` says this of steps,
and there is one rule for each way in which the steps of an expansion are put together.

An expansion that demands of every lookup that there is just one node with the insertion point does
what an expansion without this demand does, unless it misses an anchor.

* `expandAllVia_agreesUnless`: two expansions whose parts agree.
* `expandAll_agrees`: the expansions with and without the demand for single anchors.
-/

namespace WordTemplate

open Xml Forest Binding

variable {σ α β : Type} {X : Error → Prop}

/-- Whether `m` does what `m'` does unless it fails with an error that satisfies `X`. -/
def AgreesUnless (X : Error → Prop) (m m' : Step Error σ α) : Prop :=
  ∀ w, m w = m' w ∨ ∃ e w', X e ∧ m w = .error e w'

/-- Whether `m` does what `m'` does unless it misses an insertion point. -/
def Agrees (m m' : Step Error σ α) : Prop :=
  ∀ w, m w = m' w ∨ ∃ id w', m w = .error (.insertionPointMissing id) w'

/-- Whether an error is that an insertion point is missing. -/
def IsMissing (e : Error) : Prop :=
  ∃ id, e = .insertionPointMissing id

theorem agrees_iff {m m' : Step Error σ α} : Agrees m m' ↔ AgreesUnless IsMissing m m' := by
  refine forall_congr' fun w => or_congr_right ⟨?_, ?_⟩
  · rintro ⟨id, w', he⟩
    exact ⟨_, w', ⟨id, rfl⟩, he⟩
  · rintro ⟨_, w', ⟨id, rfl⟩, he⟩
    exact ⟨id, w', he⟩

/-! ## Rules -/

theorem AgreesUnless.refl (m : Step Error σ α) : AgreesUnless X m m :=
  fun _ => .inl rfl

theorem AgreesUnless.eq_of_ok {m m' : Step Error σ α} (h : AgreesUnless X m m') {w w' : Workspace σ}
    {a : α} (hm : m w = .ok a w') : m' w = .ok a w' := by
  rcases h w with he | ⟨e, w'', -, he⟩
  · exact he ▸ hm
  · rw [hm] at he
    cases he

theorem AgreesUnless.bind {m m' : Step Error σ α} {f f' : α → Step Error σ β}
    (h : AgreesUnless X m m') (hf : ∀ a, AgreesUnless X (f a) (f' a)) :
    AgreesUnless X (m >>= f) (m' >>= f') := by
  intro w
  simp only [Bind.bind, EStateM.bind]
  rcases h w with he | ⟨e, w', hX, he⟩
  · rw [he]
    cases m' w with
    | ok a w' => exact hf a w'
    | error e w' => exact .inl rfl
  · rw [he]
    exact .inr ⟨e, w', hX, rfl⟩

theorem AgreesUnless.discard {m m' : Step Error σ α} (h : AgreesUnless X m m') :
    AgreesUnless X (discard m) (discard m') := by
  rw [Functor.discard, Functor.mapConst]
  exact h.bind fun _ => .refl _

theorem AgreesUnless.thenLeave {m m' : Step Error σ α} (h : AgreesUnless X m m') (leave : σ → σ) :
    AgreesUnless X (Block.thenLeave m leave) (Block.thenLeave m' leave) := by
  intro w
  simp only [Block.thenLeave]
  rcases h w with he | ⟨e, w', hX, he⟩
  · rw [he]
    exact .inl rfl
  · rw [he]
    exact .inr ⟨e, _, hX, rfl⟩

theorem AgreesUnless.foldlM {γ : Type} {f f' : α → γ → Step Error σ α}
    (h : ∀ a c, AgreesUnless X (f a c) (f' a c)) (l : List γ) (a : α) :
    AgreesUnless X (l.foldlM f a) (l.foldlM f' a) := by
  induction l generalizing a with
  | nil => exact .refl _
  | cons c l ih =>
    rw [List.foldlM_cons, List.foldlM_cons]
    exact (h a c).bind ih

/-! ## Expansions -/

/-- Whether a driver answers like another one unless it fails with an error that satisfies `X`. -/
structure DriversAgreeUnless (X : Error → Prop) (driver driver' : Driver σ) : Prop where
  substitute : ∀ n, AgreesUnless X (Block.ask (driver.substitute n))
    (Block.ask (driver'.substitute n))
  plan : ∀ directive, AgreesUnless X (Block.ask (Step.onState (driver.plan directive)))
    (Block.ask (Step.onState (driver'.plan directive)))
  enterItem : ∀ directive i, AgreesUnless X
    (Block.ask (Step.onState (driver.enterItem directive i)))
    (Block.ask (Step.onState (driver'.enterItem directive i)))
  leaveItem : driver.leaveItem = driver'.leaveItem

theorem DriversAgreeUnless.refl (driver : Driver σ) : DriversAgreeUnless X driver driver :=
  ⟨fun _ => .refl _, fun _ => .refl _, fun _ _ => .refl _, rfl⟩

section Expansion

variable {driver driver' : Driver σ} {inner inner' : Block.Inner σ} {t : Block.Template}
  {verbatim strip : Bool} {scope : NodeId} {resolve resolve' : Resolver σ}

theorem instantiate_agreesUnless (hdriver : DriversAgreeUnless X driver driver')
    (h : ∀ select scope b, AgreesUnless X (inner select scope b) (inner' select scope b))
    (select : Block.Selection) : AgreesUnless X (Block.instantiate driver inner t verbatim select)
      (Block.instantiate driver' inner' t verbatim select) := by
  unfold Block.instantiate
  refine (AgreesUnless.refl _).bind fun fragment => (AgreesUnless.refl _).bind fun _ => ?_
  split
  · exact (hdriver.substitute fragment).bind fun _ => (h _ _ _).bind fun _ => .refl _
  · exact (h _ _ _).bind fun _ => .refl _

theorem insertInstance_agreesUnless (hdriver : DriversAgreeUnless X driver driver')
    (h : ∀ select scope b, AgreesUnless X (inner select scope b) (inner' select scope b))
    (select : Block.Selection) (cursor : NodeId) :
    AgreesUnless X (Block.insertInstance driver inner t verbatim select cursor)
      (Block.insertInstance driver' inner' t verbatim select cursor) :=
  (instantiate_agreesUnless hdriver h select).bind fun _ => .refl _

theorem insertPlanned_agreesUnless (hdriver : DriversAgreeUnless X driver driver')
    (h : ∀ select scope b, AgreesUnless X (inner select scope b) (inner' select scope b))
    (anchor : NodeId) (plan : Expansion) :
    AgreesUnless X (Block.insertPlanned driver inner t anchor plan)
      (Block.insertPlanned driver' inner' t anchor plan) := by
  unfold Block.insertPlanned
  split
  · exact insertInstance_agreesUnless hdriver h _ _
  · exact insertInstance_agreesUnless hdriver h _ _
  · refine AgreesUnless.foldlM (fun cursor index => ?_) _ _
    unfold Block.insertItem
    rw [hdriver.leaveItem]
    exact (hdriver.enterItem _ index).bind fun _ =>
      ((instantiate_agreesUnless hdriver h _).thenLeave _).bind fun _ => .refl _

theorem expandBody_agreesUnless (hdriver : DriversAgreeUnless X driver driver')
    (h : ∀ select scope b, AgreesUnless X (inner select scope b) (inner' select scope b))
    (anchor : NodeId) : AgreesUnless X (expandBody driver inner t verbatim anchor)
      (expandBody driver' inner' t verbatim anchor) := by
  unfold expandBody
  split
  · exact .refl _
  · split
    · exact (hdriver.plan _).bind fun plan => (insertPlanned_agreesUnless hdriver h anchor plan).discard
    · exact (insertInstance_agreesUnless hdriver h _ anchor).discard

/-- Two expansions agree if their lookups and their drivers do. -/
theorem expandAllVia_agreesUnless
    (hresolve : ∀ t scope, AgreesUnless X (resolve t scope) (resolve' t scope))
    (hdriver : DriversAgreeUnless X driver driver') (T : Forest Block.Template) (i : Nat)
    (select : Block.Selection) :
    AgreesUnless X (expandAllVia resolve strip driver T i select scope verbatim)
      (expandAllVia resolve' strip driver' T i select scope verbatim) := by
  induction T generalizing i select scope verbatim with
  | nil => exact .refl _
  | cons t T TS ih ihs =>
    unfold expandAllVia
    split
    · refine ((hresolve t scope).bind fun anchor => ?_).bind fun _ => ihs _ _
      exact (expandBody_agreesUnless hdriver (fun _ _ _ => ih _ _) anchor).bind fun _ => .refl _
    · exact ((hresolve t scope).bind fun anchor => .refl _).bind fun _ => ihs _ _

/-! ## The demand for single anchors -/

theorem resolveOnly_agrees : Agrees (resolveOnly t scope : Step Error σ NodeId)
    (Block.resolveAnchor t scope) := by
  intro w
  have hresolve : t.anchor.resolve? w.document scope =
      ((w.document.treeAt scope).toList.filter (t.anchor.isOn ·.label)).head?.map Node.id := by
    rw [InsertionPoint.resolve?, List.head?_filter]
  rw [resolveOnly_eq, resolveAnchor_eq, hresolve]
  generalize (w.document.treeAt scope).toList.filter (t.anchor.isOn ·.label) = nodes
  rcases nodes with _ | ⟨node, _ | ⟨m, l⟩⟩
  · exact .inl rfl
  · exact .inl rfl
  · exact .inr ⟨_, w, rfl⟩

/-- The expansion that demands single anchors agrees with the one that does not. -/
theorem expandAll_agrees (T : Forest Block.Template) (i : Nat) (select : Block.Selection) :
    Agrees (expandAllVia resolveOnly strip driver T i select scope verbatim)
      (Block.expandAll strip driver T i select scope verbatim) := by
  rw [← expandAllVia_resolveAnchor, agrees_iff]
  exact expandAllVia_agreesUnless (fun _ _ => agrees_iff.mp resolveOnly_agrees) (.refl driver) T i select

end Expansion

end WordTemplate
