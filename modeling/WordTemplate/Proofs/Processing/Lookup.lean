import WordTemplate.Binding.Model
import WordTemplate.Proofs.Processing.Building
import WordTemplate.Proofs.Processing.TableFree

/-!
# Looking up anchors

The expansion looks for the anchors of the blocks at the top in the scope, and for those of other
blocks in a copy of the content of the block above. The validation checks the second place, but not
the first: a row that goes into the content of one block can take the anchor of another along. If no
anchor of a block at the top got lost in this way, a document that passes the validation is expanded
without a lookup that fails. Outside of tables both always hold.
-/

namespace WordTemplate

open Xml Forest Binding

/-! ## After the validation -/

section Validated

variable {σ : Type} {settings : Settings} {driver : Driver σ} {root : NodeId} {d d₂ d₃ : Document}
  {B : Forest Block} {B' : Forest Block.Placed} {T : Forest Block.Template}

/-- If the anchors pass the validation and those of the blocks at the top are in the scope, the
expansion of all blocks finds every anchor that it looks for. -/
theorem expandBlocks_ne_insertionPointMissing (h : Processable settings d root)
    (hstages : Stages settings root d B B' d₂ T d₃) (hvalid : Block.validate d₃ T = .ok ())
    (hroots : ∀ t ∈ T.roots, (t.anchor.resolve? d₃ root).isSome = true)
    (hdriver : driver.RewritesPlaceholders) (s : σ) (id : String) (w' : Workspace σ) :
    expandBlocks settings driver root ⟨d, s⟩ ≠ .error (.insertionPointMissing id) w' := by
  obtain ⟨ss, htaken⟩ := h.exists_taken hstages
  have hread : readBlocks settings root ⟨d, s⟩ = .ok T ⟨d₃, s⟩ := by
    rw [hstages.readBlocks_eq s, hvalid, ite_self]
  have hruns := htaken.runs_expandBlocks ⟨hroots, hvalid⟩ hdriver hread
  intro hmissing
  rw [Runs, hmissing] at hruns
  rcases hruns with ⟨_, h⟩ | ⟨_, h⟩ <;> cases h

end Validated

example : errorOf? (expandBlocks {} (ModelBinding.driver {}) ⟨0⟩
    ⟨Word.documentOf (Word.tableOf [["{{?b}}x", "y{{/}}"]]), Scopes.ofModel (.object [("b", .bool true)])⟩) =
      none := by
  decide +kernel

/-- A row that goes into the content of the first of its blocks. -/
def nestedRow : Document :=
  Word.documentOf (Word.tableOf [["{{#A}}{{?b}}x{{/}}", "y{{/A}}"]])

theorem expandBlocks_ne_insertionPointMissing_row :
    ∃ B B' d₂ T d₃, Stages {} nestedRow.root nestedRow B B' d₂ T d₃ ∧
      AnchorsInPlace d₃ nestedRow.root T ∧ ∀ s id w',
        expandBlocks {} (ModelBinding.driver {}) nestedRow.root ⟨nestedRow, s⟩ ≠
          .error (.insertionPointMissing id) w' := by
  have hprocessable : Processable {} nestedRow nestedRow.root :=
    processable_documentOf (by decide +kernel)
  obtain ⟨B, B', d₂, T, d₃, hstages, hplace⟩ :=
    exists_stages_of_anchorsFound {} nestedRow.root nestedRow (by decide +kernel)
  exact ⟨B, B', d₂, T, d₃, hstages, hplace, expandBlocks_ne_insertionPointMissing hprocessable hstages
    hplace.validate_eq hplace.roots_isSome (ModelBinding.rewritesPlaceholders {})⟩

/-! ## Without tables -/

section TableFree

variable {settings : Settings} {root : NodeId} {d d₂ d₃ : Document} {B : Forest Block}
  {B' : Forest Block.Placed} {T : Forest Block.Template} {ss : List Sign} {mute : List String}

/-- If every anchor is in place, those of the blocks at the top occur once in the scope. -/
theorem Taken.occurrences_eq_one (h : Taken mute d₃ root T ss) (hplace : AnchorsInPlace d₃ root T) :
    ∀ t ∈ T.roots, t.anchor.occurrences d₃ [root] = 1 := by
  intro t ht
  obtain ⟨hperm, hnd⟩ := (h.covers hplace).1
  have htrees : d₃.treesAt [root] = d₃.treeAt root := by simp [Document.treesAt]
  rw [occurrences_eq (htrees ▸ h.isScoped.sound : Sound mute (labels (d₃.treesAt [root]))), htrees, h.isScoped.signs_eq,
    hperm.count_eq]
  exact Nat.le_antisymm (List.nodup_iff_count.mp hnd _)
    (List.count_pos_iff.mpr (List.mem_map_of_mem ht))

/-- Without tables all blocks of a document can be placed, every anchor is where it is looked for and
nowhere else, and each lookup of the expansion finds a single node, whatever the driver says. So
processing fails only because of the driver or of an unknown keyword. -/
theorem anchors_sound_of_tableFree (h : Processable settings d root)
    (hfree : TableFree (d.labelsAt root)) (hB : Block.nest (prepare settings root d).1 = .ok B) :
    ∃ B' d₂ T d₃, Stages settings root d B B' d₂ T d₃ ∧ Block.validate d₃ T = .ok () ∧
      (∀ t ∈ T.roots, t.anchor.occurrences d₃ [root] = 1) ∧ AnchoredOnce d₃ T ∧
      ∀ {σ : Type} {driver : Driver σ}, driver.RewritesPlaceholders → ∀ s : σ,
        expandVia resolveOnly settings driver root T ⟨d₃, s⟩ =
          expandVia Block.resolveAnchor settings driver root T ⟨d₃, s⟩ ∧
        Runs (processAt settings driver root) ⟨d, s⟩ (fun _ _ => True) fun e _ => IsExpected e := by
  obtain ⟨_, _, P, B', d₂, T, d₃, ss, -, -, -, hstages, htaken, hframed⟩ := h.exists_framed hfree hB
  have hplace := hframed.anchorsInPlace htaken
  refine ⟨B', d₂, T, d₃, hstages, hplace.validate_eq, htaken.occurrences_eq_one hplace,
    hframed.anchoredOnce (fun t ht => (htaken.isStored t ht).2) htaken.nodup, ?_⟩
  intro σ driver hdriver s
  refine ⟨htaken.expandVia_eq hplace hdriver s, ?_⟩
  have hread : readBlocks settings root ⟨d, s⟩ = .ok T ⟨d₃, s⟩ := by
    rw [hstages.readBlocks_eq s, hplace.validate_eq, ite_self]
  exact ((htaken.runs_expandBlocks hplace hdriver hread).mono (fun _ _ _ => trivial)
    fun _ _ he => he).bind fun _ _ _ => trivial

/-- Two paragraphs with two blocks, one in the other. -/
def nestedParagraphs : Document :=
  Word.documentOf (Word.paragraphOf "{{#A}}a{{?b}}x" ++ Word.paragraphOf "y{{:}}z{{/}}{{/A}}")

theorem anchors_sound_nestedParagraphs :
    ∃ B B' d₂ T d₃, Stages {} nestedParagraphs.root nestedParagraphs B B' d₂ T d₃ ∧
      Block.validate d₃ T = .ok () ∧
      ∀ s, Runs (processAt {} (ModelBinding.driver {}) nestedParagraphs.root) ⟨nestedParagraphs, s⟩
        (fun _ _ => True) fun e _ => IsExpected e := by
  have hprocessable : Processable {} nestedParagraphs nestedParagraphs.root :=
    processable_documentOf (by decide +kernel)
  have hfree : TableFree (nestedParagraphs.labelsAt nestedParagraphs.root) := by
    rw [nestedParagraphs, labelsAt_root_documentOf]
    decide
  cases hB : Block.nest (prepare {} nestedParagraphs.root nestedParagraphs).1 with
  | error e =>
    have hok : (Block.nest (prepare {} nestedParagraphs.root nestedParagraphs).1).isOk = true := by
      decide +kernel
    rw [hB] at hok
    cases hok
  | ok B =>
    obtain ⟨B', d₂, T, d₃, hstages, hvalid, -, -, hruns⟩ :=
      anchors_sound_of_tableFree hprocessable hfree hB
    exact ⟨B, B', d₂, T, d₃, hstages, hvalid,
      fun s => (hruns (ModelBinding.rewritesPlaceholders {}) s).2⟩

end TableFree

/-! ## Anchors that get lost -/

/-- How reading the blocks of a document fails, and how expanding them does. -/
def failures {σ : Type} (settings : Settings) (driver : Driver σ) (d : Document) (s : σ) :
    Option Error × Option Error :=
  (errorOf? (readBlocks settings d.root ⟨d, s⟩), errorOf? (expandBlocks settings driver d.root ⟨d, s⟩))

/-- A driver that takes everything out that is below a scope. -/
def emptying : Driver Unit where
  substitute root := Step.change fun d => (d.takeChildren root).2
  plan _ := pure (.branch none)
  enterItem _ _ := pure ()
  leaveItem := id

/-- A document that passes the validation can still lack an anchor: if its row is the content of
another block, if the driver takes it out, if it is in the properties of a paragraph that is stripped,
or in a line break that is trimmed. -/
theorem insertionPointMissing_after_validation :
    failures {} (ModelBinding.driver {})
        (Word.documentOf (Word.tableOf [["{{?b}}x{{/}}{{#A}}", "{{/A}}"]]))
        (Scopes.ofModel (.object [("A", .array [.null]), ("b", .bool true)])) =
      (none, some (.insertionPointMissing "ConditionStart_0")) ∧
    failures {} emptying (Word.documentOf (Word.paragraphOf "{{?b}}x{{/}}")) () =
      (none, some (.insertionPointMissing "ConditionStart_0")) ∧
    failures {} (ModelBinding.driver {})
        (Word.documentOf (tree (.element ⟨Word.paragraph, []⟩) (tree (.element ⟨"w:pPr", []⟩)
          (Word.runOf "{{:br}}{{:br}}"))))
        (Scopes.ofModel .null) =
      (none, some (.insertionPointMissing "InlineKeyword_1")) ∧
    failures { trimLineBreaks := true } (ModelBinding.driver {})
        (Word.documentOf (tree (.element ⟨Word.paragraph, []⟩) (tree (.element ⟨Word.run, []⟩)
          (Word.textOf "{{v}}" ++ tree (.element ⟨Word.lineBreak, []⟩) (Word.textOf "{{:br}}")))))
        (Scopes.ofModel (.object [("v", .string "a")])) =
      (none, some (.insertionPointMissing "InlineKeyword_0")) := by
  decide +kernel

/-- The blocks of a scope that is a row or a table itself may be impossible to place, or lose their
anchors. Nor can a block be placed that ends in a line break that is trimmed. -/
theorem anchors_unsound_in_row_table_lineBreak :
    failures {} emptying (.ofTree ⟨Word.row, []⟩ (Word.cellOf "{{?b}}x" ++ Word.cellOf "y{{/}}")) () =
      (some (.disjoint "{{?b}}"), some (.disjoint "{{?b}}")) ∧
    failures {} emptying (.ofTree ⟨Word.table, []⟩ (Word.paragraphOf "{{#A}}" ++
        (Word.paragraphOf "x{{/A}}{{?b}}y" ++ Word.paragraphOf "{{/}}"))) () =
      (some (.insertionPointMisplaced "None_3" "{{?b}}"),
        some (.insertionPointMisplaced "None_3" "{{?b}}")) ∧
    failures { trimLineBreaks := true } emptying (Word.documentOf (tree (.element ⟨Word.paragraph, []⟩)
        (tree (.element ⟨Word.run, []⟩) (Word.textOf "{{?b}}" ++
          tree (.element ⟨Word.lineBreak, []⟩) (Word.textOf "{{/}}"))))) () =
      (some (.disjoint "{{?b}}"), some (.disjoint "{{?b}}")) := by
  decide +kernel

end WordTemplate
