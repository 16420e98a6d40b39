import WordTemplate.Proofs.Block.Nesting
import WordTemplate.Proofs.Block.Session
import WordTemplate.Proofs.Processing.Expanding

/-!
# The calls of a driver

A driver is asked for nothing until all blocks have been read. Then come the placeholders of the scope,
and the rest is a session, whether processing succeeds or not.

* `kind_of_mem_withinIgnored`: no block in an ignored region is a collection or a condition.
* `runs_processAt_disciplined`: the calls while a document is processed.
-/

namespace WordTemplate

open Xml Forest Binding

variable {σ : Type} {settings : Settings} {driver : Driver σ} {root : NodeId}

/-! ## Blocks in ignored regions -/

namespace Block

/-- The blocks within an ignored region are its sections, which begin where it begins. -/
theorem kind_of_mem_withinIgnored {T : Forest Template} (h : Conforms (T.map Template.block)) :
    ∀ t ∈ withinIgnored T, t.block.start.directive.kind = .ignoreStart := by
  induction T with
  | nil => simp [withinIgnored]
  | cons t inner rest ihi ihr =>
    obtain ⟨hkind, hignore, hinner, hrest⟩ := h
    intro u hu
    rcases List.mem_append.mp hu with hu | hu
    · split at hu
      · next he =>
        have hstart : u.block.start = t.block.start := by
          refine hignore he u.block ?_
          rw [toList_map]
          exact List.mem_map_of_mem hu
        rw [hstart]
        rcases hkind with hk | hk
        · exact absurd (he.symm.trans hk) (by simp)
        · exact hk ▸ he
      · exact ihi hinner u hu
    · exact ihr hrest u hu

/-- The directive of a block outside of ignored regions that has a plan is of the block's kind. -/
theorem kind_of_planned {T : Forest Template} (h : Conforms (T.map Template.block)) :
    ∀ t ∈ outsideIgnored T, t.kind ≠ .content → t.block.start.directive.kind = t.kind := by
  induction T with
  | nil => simp [outsideIgnored]
  | cons t inner rest ihi ihr =>
    obtain ⟨hkind, -, hinner, hrest⟩ := h
    intro u hu hu'
    rcases List.mem_cons.mp hu with rfl | hu
    · exact (hkind.resolve_left hu').symm
    rcases List.mem_append.mp hu with hu | hu
    · split at hu
      · cases hu
      · exact ihi hinner u hu hu'
    · exact ihr hrest u hu hu'

end Block

/-- The blocks that are found in a document conform. -/
theorem Stages.conforms {d d₂ d₃ : Document} {B : Forest Block} {B' : Forest Block.Placed}
    {T : Forest Block.Template} (h : Stages settings root d B B' d₂ T d₃) :
    Block.Conforms (T.map Block.Template.block) := by
  have hT : T.map Block.Template.block = B := by
    rw [← (Prod.mk.inj h.extractAll_eq).1, Block.map_block_extractAll, Block.map_block_placeAll
      h.placeAll_eq, map_snd_number]
  rw [hT]
  refine Block.conforms_nest ?_ h.nest_eq
  show SkipsIgnored false ((isolateDirectives (d.removeMarkup root) root).1.map _)
  rw [directives_isolateDirectives]
  exact skipsIgnored_findAll _

/-- No plan is asked for the directive of a block in an ignored region. -/
theorem Planned.not_withinIgnored {T : Forest Block.Template} {directive : Directive}
    (h : Planned T directive) (hT : Block.Conforms (T.map Block.Template.block)) :
    ∀ t ∈ Block.withinIgnored T, t.block.start.directive ≠ directive := by
  obtain ⟨u, hu, hkind, rfl⟩ := h
  intro t ht he
  have hignore := Block.kind_of_mem_withinIgnored hT t ht
  have hplan := Block.kind_of_planned hT u hu (by rcases hkind with hk | hk <;> simp [hk])
  rw [← he, hignore] at hplan
  rw [← hplan] at hkind
  simp at hkind

/-! ## Calls -/

/-- Reading the blocks has nothing to do with the state of the driver. -/
theorem readBlocks_eq_of_state {τ : Type} (settings : Settings) (root : NodeId) (d : Document) (s : σ)
    (t : τ) :
    readBlocks settings root ⟨d, t⟩ =
      match readBlocks settings root ⟨d, s⟩ with
      | .ok T w => .ok T ⟨w.document, t⟩
      | .error e w => .error e ⟨w.document, t⟩ := by
  rw [readBlocks_eq_match, readBlocks_eq_match]
  cases Block.nest (prepare settings root d).1 with
  | error e => rfl
  | ok B =>
    dsimp only
    cases Block.placeAll (B.number 0) (prepare settings root d).2 with
    | error e d₂ => rfl
    | ok B' d₂ =>
      dsimp only
      cases if settings.validate then Block.validate (Block.extractAll B' d₂).2
        (Block.extractAll B' d₂).1 else .ok () <;> rfl

/-- What is so of the calls of a driver for which a scope is processed, and which get it from the
state `s` to `s'`. `ended` says whether processing succeeds. -/
structure Disciplined (settings : Settings) (driver : Driver σ) (root : NodeId) (d : Document) (s : σ)
    (ended : Bool) (calls : List Call) (s' : σ) : Prop where
  /-- Nothing is asked if the blocks cannot be read. -/
  silent : ∀ e w, readBlocks settings root ⟨d, s⟩ = .error e w →
    ended = false ∧ calls = [] ∧ s' = s
  /-- First the placeholders of the scope are filled in. -/
  first : ∀ T w, readBlocks settings root ⟨d, s⟩ = .ok T w → ∃ after outcome others,
    calls = .substitute root w.document after outcome :: others
  /-- The calls are a session, with plans of blocks outside of ignored regions. -/
  session : ∀ T w, readBlocks settings root ⟨d, s⟩ = .ok T w →
    Session driver (Planned T) .free ended s calls s'
  /-- Every item that is entered is left. -/
  balanced : Balanced calls
  /-- There are no plans of blocks in ignored regions. -/
  ignored : ∀ T w, readBlocks settings root ⟨d, s⟩ = .ok T w → ∀ t ∈ Block.withinIgnored T,
    ∀ outcome, .plan t.block.start.directive outcome ∉ calls

/-- The calls of an expansion after its blocks have been read: first the placeholders of the scope,
then those of the blocks. -/
theorem runs_expandVia_calls (T : Forest Block.Template) (w : Workspace σ) :
    Runs (expandVia Block.resolveAnchor settings driver root T) w
      (fun _ w' => ∃ after outcome others,
        Session driver (Planned T) .free true w.state
          (.substitute root w.document after outcome :: others) w'.state)
      (fun _ w' => ∃ after outcome others,
        Session driver (Planned T) .free false w.state
          (.substitute root w.document after outcome :: others) w'.state) := by
  rw [expandVia, expandAllVia_resolveAnchor]
  have hblocks : Acts driver (Planned T) .free
      (Block.expandAll settings.stripEmptyParagraphs driver T 0 .all root false) :=
    (acts_expandAll _ T 0 .all root false).mono fun _ h => h.2
  refine Runs.bind (Q := fun _ w₁ => driver.substitute root w = .ok () w₁) (Runs.ask ?_) ?_
  · unfold Runs
    cases hs : driver.substitute root w with
    | ok u w₁ => rfl
    | error e w₁ => exact ⟨_, _, [], .substituteFailed hs⟩
  · rintro - w₁ hs
    refine (hblocks w₁).mono ?_ ?_ <;> rintro _ w' ⟨calls, h⟩ <;>
      exact ⟨_, _, calls, .substitute hs h⟩

/-- A session after the blocks have been read, as a driver records it. -/
theorem disciplined_of_recorded {d : Document} {s : σ} {ended : Bool} {T : Forest Block.Template}
    {w : Workspace σ} {after : Document} {outcome : Except Binding.Error Unit} {others : List Call}
    {t' : σ × List Call} (hread : readBlocks settings root ⟨d, s⟩ = .ok T w)
    (h : Session driver.recorded (Planned T) .free ended (s, [])
      (.substitute root w.document after outcome :: others) t') :
    Disciplined settings driver root d s ended t'.2 t'.1 := by
  obtain ⟨hsession, hlog⟩ := h.of_recorded
  rw [List.nil_append] at hlog
  rw [← hlog] at hsession
  have hT : ∀ {T' w'}, readBlocks settings root ⟨d, s⟩ = .ok T' w' → T' = T ∧ w' = w := by
    intro T' w' h'
    rw [hread] at h'
    cases h'
    exact ⟨rfl, rfl⟩
  refine ⟨fun e w' h' => ?_, fun T' w' h' => ?_, fun T' w' h' => ?_, hsession.balanced,
    fun T' w' h' t ht outcome hmem => ?_⟩
  · rw [hread] at h'
    cases h'
  · obtain ⟨rfl, rfl⟩ := hT h'
    exact ⟨after, outcome, others, hlog⟩
  · obtain ⟨rfl, rfl⟩ := hT h'
    exact hsession
  · obtain ⟨rfl, rfl⟩ := hT h'
    obtain ⟨B, B', d₂, d₃, hstages, -, -⟩ := exists_stages hread
    exact (hsession.of_plan_mem hmem).not_withinIgnored hstages.conforms t ht rfl

/-- The calls while blocks are read and expanded, as a driver records them. -/
theorem runs_expandBlocks_disciplined (settings : Settings) (driver : Driver σ) (root : NodeId)
    (d : Document) (s : σ) :
    Runs (expandBlocks settings driver.recorded root) ⟨d, (s, [])⟩
      (fun _ w => Disciplined settings driver root d s true w.state.2 w.state.1)
      (fun _ w => Disciplined settings driver root d s false w.state.2 w.state.1) := by
  have hrecorded := readBlocks_eq_of_state settings root d s (s, ([] : List Call))
  unfold Runs
  cases hread : readBlocks settings root ⟨d, s⟩ with
  | error e w =>
    rw [hread] at hrecorded
    rw [expandBlocks_of_readBlocks_error hrecorded]
    have hnot : ∀ {T w'}, readBlocks settings root ⟨d, s⟩ ≠ .ok T w' := by
      intro T w' h
      rw [hread] at h
      cases h
    exact ⟨fun _ _ _ => ⟨rfl, rfl, rfl⟩, fun _ _ h => absurd h hnot, fun _ _ h => absurd h hnot,
      .nil, fun _ _ h => absurd h hnot⟩
  | ok T w =>
    rw [hread] at hrecorded
    rw [expandBlocks_of_readBlocks hrecorded]
    exact (runs_expandVia_calls T ⟨w.document, (s, [])⟩).mono
      (fun _ _ ⟨_, _, _, h⟩ => disciplined_of_recorded hread h)
      fun _ _ ⟨_, _, _, h⟩ => disciplined_of_recorded hread h

/-- The driver of a model ends with the scopes with which it began. -/
theorem runs_expandBlocks_scopes (b : ModelBinding) (d : Document) (scopes : Scopes) :
    Runs (expandBlocks settings b.driver root) ⟨d, scopes⟩ (fun _ w => w.state = scopes)
      fun _ w => w.state = scopes := by
  unfold Runs
  cases hread : readBlocks settings root ⟨d, scopes⟩ with
  | error e w =>
    rw [expandBlocks_of_readBlocks_error hread]
    have hstate := readBlocks_eq_of_state settings root d scopes scopes
    rw [hread] at hstate
    exact congrArg Workspace.state (EStateM.Result.error.inj hstate).2
  | ok T w =>
    rw [expandBlocks_of_readBlocks hread]
    obtain ⟨B, B', d₂, d₃, -, rfl, -⟩ := exists_stages hread
    exact (runs_expandVia_calls T ⟨d₃, scopes⟩).mono
      (fun _ _ ⟨_, _, _, h⟩ => b.keepsScope.eq_of_session h)
      fun _ _ ⟨_, _, _, h⟩ => b.keepsScope.eq_of_session h

/-- Whether processing succeeds or fails, the calls of a driver keep to their discipline, and the driver
of a model ends with the scopes with which it began. -/
theorem runs_processAt_disciplined (settings : Settings) (driver : Driver σ) (root : NodeId)
    (d : Document) (s : σ) :
    Runs (processAt settings driver.recorded root) ⟨d, (s, [])⟩
      (fun _ w => Disciplined settings driver root d s true w.state.2 w.state.1)
      (fun _ w => Disciplined settings driver root d s false w.state.2 w.state.1) ∧
    ∀ (b : ModelBinding) (scopes : Scopes),
      Runs (processAt settings b.driver root) ⟨d, scopes⟩ (fun _ w => w.state = scopes)
        fun _ w => w.state = scopes :=
  ⟨(runs_expandBlocks_disciplined settings driver root d s).bind fun _ _ h => runs_change h,
    fun b scopes => (runs_expandBlocks_scopes b d scopes).bind fun _ _ h => runs_change h⟩

end WordTemplate
