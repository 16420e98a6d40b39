import WordTemplate.Binding.Model
import WordTemplate.Proofs.Processing.Building

/-!
# Processing with and without validation

The validation only checks, so it changes no result, but it may find fault with a document that would
have been processed. That takes a row that goes into the content of one block with the anchor of
another.
-/

namespace WordTemplate

open Xml Forest Binding

section Checking

variable {σ : Type} {settings : Settings} {driver : Driver σ} {root : NodeId} {d d₃ : Document}
  {T : Forest Block.Template}

/-- The validation fails only because an anchor is not in the content of the block above. -/
theorem exists_misplaced_of_validate_eq_error {e : Error} (h : Block.validate d T = .error e) :
    ∃ id directive, e = .insertionPointMisplaced id directive := by
  have hcheck : ∀ {t : Block.Template} {inner : List Block.Template} {e : Error},
      inner.forM (Block.checkAnchor d t) = .error e →
        ∃ id directive, e = .insertionPointMisplaced id directive := by
    intro t inner e h
    induction inner with
    | nil => cases h
    | cons i inner ih =>
      rw [List.forM, Block.checkAnchor] at h
      split at h
      · exact ih h
      · cases h
        exact ⟨_, _, rfl⟩
  induction T with
  | nil => cases h
  | cons t inner rest ihi ihr =>
    unfold Block.validate at h
    cases hroots : inner.roots.forM (Block.checkAnchor d t) with
    | error e' =>
      rw [hroots] at h
      cases h
      exact hcheck hroots
    | ok u =>
      rw [hroots] at h
      cases hinner : Block.validate d inner with
      | error e' =>
        rw [hinner] at h
        cases h
        exact ihi hinner
      | ok u' =>
        rw [hinner] at h
        exact ihr h

theorem processAt_eq (settings : Settings) (driver : Driver σ) (root : NodeId) (w : Workspace σ) :
    processAt settings driver root w =
      match readBlocks settings root w with
      | .error e w' => .error e w'
      | .ok T w' =>
        match expandVia Block.resolveAnchor settings driver root T w' with
        | .error e w' => .error e w'
        | .ok () w' => .ok () { w' with
            document := w'.document.finish settings.stripEmptyParagraphs root } := by
  show EStateM.bind (expandBlocks settings driver root) _ w = _
  cases hread : readBlocks settings root w with
  | error e w' => simp only [EStateM.bind, expandBlocks_of_readBlocks_error hread]
  | ok T w' =>
    simp only [EStateM.bind, expandBlocks_of_readBlocks hread]
    cases expandVia Block.resolveAnchor settings driver root T w' <;> rfl

/-- A condition with its sections in rows of their own. -/
def sectionRows : Document :=
  Word.documentOf (Word.tableOf [["{{?e}}a"], ["{{:}}"], ["b{{/}}"]])

/-- The text of a document after processing, or why it failed. -/
def processedText (settings : Settings) (model : Json) (d : Document) : Except Error String :=
  match process settings (ModelBinding.driver {}) ⟨d, Scopes.ofModel model⟩ with
  | .ok _ w => .ok (w.document.innerText w.document.root)
  | .error e _ => .error e

/-- What processing makes of a document, without identifiers, or why it failed. -/
def processedLabels (settings : Settings) (model : Json) (d : Document) :
    Except Error (Forest Label) :=
  match process settings (ModelBinding.driver {}) ⟨d, Scopes.ofModel model⟩ with
  | .ok _ w => .ok (w.document.labelsAt w.document.root)
  | .error e _ => .error e

/-- The row between the sections of a condition is in the content of both. The first takes it, with the
anchor of the other section, so the validation fails. Without validation both sections are shown if the
condition holds, and if it does not, the anchor of the other section is missing. -/
theorem sections_not_apart_in_rows :
    processedText { validate := true } (.object [("e", .bool true)]) sectionRows =
      .error (.insertionPointMisplaced "ConditionElse_2" "{{:}}") ∧
    processedText { validate := true } (.object [("e", .bool false)]) sectionRows =
      .error (.insertionPointMisplaced "ConditionElse_2" "{{:}}") ∧
    processedText { validate := false } (.object [("e", .bool true)]) sectionRows = .ok "ab" ∧
    processedText { validate := false } (.object [("e", .bool false)]) sectionRows =
      .error (.insertionPointMissing "ConditionElse_2") := by
  decide +kernel

example : errorOf? (process { validate := true } (ModelBinding.driver {})
    ⟨Word.documentOf (Word.paragraphOf "{{?e}}a{{:}}b{{/}}"),
      Scopes.ofModel (.object [("e", .bool false)])⟩) = none := by
  decide +kernel

end Checking

end WordTemplate
