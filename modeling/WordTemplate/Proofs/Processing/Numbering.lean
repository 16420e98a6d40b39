import WordTemplate.Proofs.Processing.Settled

/-!
# Numbers of copied drawings

A block that is repeated copies the drawings in its content, numbers and all. Once a scope has been processed
no two drawings in it have the same number. The numbers beyond the scope are not looked at, so a copy can get
a number that is in use there.

* `processAt_distinctDrawings`: the numbers in the scope are distinct.
* `copy_takes_number_beyond`: a number from beyond the scope is given again.
-/

namespace WordTemplate

open Xml Forest Binding Document

section Numbering

variable {σ : Type} {settings : Settings} {driver : Driver σ} {root : NodeId} {w w' : Workspace σ} {d : Document}

/-- Finishing a scope gives its drawings distinct numbers. -/
theorem finish_distinctDrawings {F : Fence} (h : Fenced F d) (hopen : ¬ F.guarded) (strip : Bool) :
    (d.finish strip F.root).DistinctDrawings F.root := by
  have hpoints := removeInsertionPoints_confined h
  have hstrip : F.guarded → strip = false := fun hg => absurd hg hopen
  have htexts := removeDirectiveTexts_confined hpoints.fenced hstrip
  have hnumbered := renumberDrawings_confined htexts.fenced
  have hdistinct := renumberDrawings_distinct htexts.fenced.wellFormed htexts.fenced.root_mem
  have wf₃ := hnumbered.fenced.wellFormed
  have hroot₃ := hnumbered.fenced.root_mem
  exact (ensureCellParagraphs_supplies wf₃ hroot₃).1.distinctDrawings wf₃ hroot₃ hdistinct

/-- After a scope has been processed no two drawings in it have the same number. -/
theorem processAt_distinctDrawings (wf : w.document.WellFormed) (hroot : root ∈ w.document.ids)
    (hname : (w.document.parent? root).isSome → ∀ name ∈ [Word.text, Word.run, Word.row],
      w.document.isNamed root name = false)
    (hanchor : (w.document.parent? root).isSome → ∀ kind number,
      w.document.attribute? root Word.insertionAttribute ≠ some (Block.startPoint kind number).id)
    (hdriver : driver.RewritesPlaceholders) (hrun : processAt settings driver root w = .ok () w') :
    w'.document.DistinctDrawings root := by
  obtain ⟨w₁, hexpand, hfinish⟩ := exists_of_processAt hrun
  have hruns : RunsConfined (w.document.fence root False) (expandBlocks settings driver root) w :=
    runs_expandBlocks_confined hdriver (fenced_fence wf hroot False hname)
      (fun ho => hanchor ((wf.outside_self_iff hroot).mp ho)) fun hg => absurd hg id
  rw [RunsConfined, Runs, hexpand] at hruns
  rw [hfinish]
  exact finish_distinctDrawings (F := w.document.fence root False) hruns.fenced id settings.stripEmptyParagraphs

end Numbering

/-- A drawing with this number. -/
def drawingOf (id : String) : Forest Label :=
  tree (.element ⟨"w:drawing", []⟩) (tree (.element ⟨Word.drawing, [("id", id)]⟩) .nil)

/-- A document with a drawing in front of its body, and a block in the body that repeats another one. -/
def backgroundAndBlock : Document :=
  .ofTree ⟨"w:document", []⟩ (tree (.element ⟨"w:background", []⟩) (drawingOf "1") ++
    tree (.element ⟨Word.body, []⟩) (Word.paragraphOf "{{#A}}" ++
      tree (.element ⟨Word.paragraph, []⟩) (tree (.element ⟨Word.run, []⟩) (drawingOf "5")) ++
      Word.paragraphOf "{{/A}}"))

/-- The numbers of all drawings are distinct before, but the copy gets that of the drawing in front of the
body. -/
theorem copy_takes_number_beyond :
    let run := process {} (ModelBinding.driver {})
      ⟨backgroundAndBlock, Scopes.ofModel (.object [("A", .array [.null, .null])])⟩
    let top := backgroundAndBlock.root
    backgroundAndBlock.DistinctDrawings top ∧ errorOf? run = none ∧
      ((documentAfter run).drawings top).map Prod.snd = [1, 5, 1] ∧
      ¬ (documentAfter run).DistinctDrawings top := by
  intro run top
  refine ⟨(wellFormed_ofTree ..).distinctDrawings_iff.mpr (by decide +kernel), by decide +kernel,
    by decide +kernel, fun h => ?_⟩
  -- The drawing in front of the body, and the second copy of the other one.
  have heq : (⟨3⟩ : NodeId) = ⟨42⟩ :=
    h _ (by decide +kernel) _ (by decide +kernel) 1 (by decide +kernel) (by decide +kernel)
  cases heq

end WordTemplate
