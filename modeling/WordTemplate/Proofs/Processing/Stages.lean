import WordTemplate.Processing

/-!
# The stages of processing

Reading the blocks of a document goes through stages: the document is prepared, the directives are
nested, the blocks are placed, their contents are taken out, and the anchors are validated. `Stages`
says how the first four end if none of them fails.

* `readBlocks_eq`: what reading the blocks comes to after the stages.
* `exists_stages`: if the blocks can be read, all stages were gone through.
-/

namespace WordTemplate

open Xml Binding

variable {σ : Type} {settings : Settings} {root : NodeId} {d d₁ d₂ d₃ : Document}
  {B : Forest Block} {B' : Forest Block.Placed} {T : Forest Block.Template}

/-- Whether the blocks `B` are found in `d`, placed in `d₂`, and without their contents in `d₃`. -/
structure Stages (settings : Settings) (root : NodeId) (d : Document) (B : Forest Block)
    (B' : Forest Block.Placed) (d₂ : Document) (T : Forest Block.Template) (d₃ : Document) : Prop where
  nest_eq : Block.nest (prepare settings root d).1 = .ok B
  placeAll_eq : Block.placeAll (B.number 0) (prepare settings root d).2 = .ok B' d₂
  extractAll_eq : Block.extractAll B' d₂ = (T, d₃)

/-- The stages of reading the blocks, with what follows a failure of each. -/
theorem readBlocks_eq_match (d : Document) (s : σ) :
    readBlocks settings root ⟨d, s⟩ =
      match Block.nest (prepare settings root d).1 with
      | .error e => .error e ⟨(prepare settings root d).2, s⟩
      | .ok B =>
        match Block.placeAll (B.number 0) (prepare settings root d).2 with
        | .error e d₂ => .error e ⟨d₂, s⟩
        | .ok B' d₂ =>
          match if settings.validate then Block.validate (Block.extractAll B' d₂).2
            (Block.extractAll B' d₂).1 else .ok () with
          | .error e => .error e ⟨(Block.extractAll B' d₂).2, s⟩
          | .ok () => .ok (Block.extractAll B' d₂).1 ⟨(Block.extractAll B' d₂).2, s⟩ := by
  unfold readBlocks
  have hprepare : (Step.changeGet (prepare settings root) : Step Error σ _) ⟨d, s⟩ =
      .ok (prepare settings root d).1 ⟨(prepare settings root d).2, s⟩ := rfl
  show EStateM.bind (Step.changeGet (prepare settings root)) _ _ = _
  simp only [EStateM.bind, hprepare]
  cases Block.nest (prepare settings root d).1 with
  | error e => rfl
  | ok B =>
    show EStateM.bind (Step.onDocument (Block.placeAll (B.number 0))) _ _ = _
    simp only [EStateM.bind, Step.onDocument]
    cases Block.placeAll (B.number 0) (prepare settings root d).2 with
    | error e d₂ => rfl
    | ok B' d₂ =>
      dsimp only
      cases settings.validate with
      | false => rfl
      | true =>
        simp only [if_true]
        have hextract : (Step.changeGet (Block.extractAll B') : Step Error σ _) ⟨d₂, s⟩ =
            .ok (Block.extractAll B' d₂).1 ⟨(Block.extractAll B' d₂).2, s⟩ := rfl
        show EStateM.bind (Step.changeGet (Block.extractAll B')) _ _ = _
        simp only [EStateM.bind, hextract]
        cases hv : Block.validate (Block.extractAll B' d₂).2 (Block.extractAll B' d₂).1 with
        | error e =>
          show EStateM.bind (orThrow (Block.validate _ _)) _ _ = _
          simp only [EStateM.bind, orThrow, hv]
          rfl
        | ok u =>
          show EStateM.bind (orThrow (Block.validate _ _)) _ _ = _
          simp only [EStateM.bind, orThrow, hv]
          rfl

/-- What reading the blocks comes to after its stages. -/
theorem Stages.readBlocks_eq (h : Stages settings root d B B' d₂ T d₃) (s : σ) :
    readBlocks settings root ⟨d, s⟩ =
      match if settings.validate then Block.validate d₃ T else .ok () with
      | .error e => .error e ⟨d₃, s⟩
      | .ok () => .ok T ⟨d₃, s⟩ := by
  simp only [readBlocks_eq_match, h.nest_eq, h.placeAll_eq, h.extractAll_eq]

/-- If the blocks can be read, all stages were gone through. -/
theorem exists_stages {w w' : Workspace σ} (h : readBlocks settings root w = .ok T w') :
    ∃ B B' d₂ d₃, Stages settings root w.document B B' d₂ T d₃ ∧ w' = ⟨d₃, w.state⟩ ∧
      (settings.validate = true → Block.validate d₃ T = .ok ()) := by
  obtain ⟨d, s⟩ := w
  rw [readBlocks_eq_match] at h
  split at h
  · cases h
  · next B hB =>
    split at h
    · cases h
    · next B' d₂ hB' =>
      split at h
      · cases h
      · next hv =>
        cases h
        refine ⟨B, B', d₂, _, ⟨hB, hB', rfl⟩, rfl, fun hval => ?_⟩
        rwa [if_pos hval] at hv

end WordTemplate
