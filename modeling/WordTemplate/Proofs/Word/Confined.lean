import WordTemplate.Proofs.Preparation
import WordTemplate.Proofs.Word.Detachment
import WordTemplate.Proofs.Word.Passes
import WordTemplate.Proofs.Word.Texts
import WordTemplate.Proofs.Xml.Fence

/-!
# Preparing a scope

Isolating the directives of a scope and taking marks and line breaks out respects the fence around the
scope, also if texts are in other texts. The texts that are read are in the scope, and the texts that
are made are new, so the nodes of all characters stay on this side of the fence.

* `isolating_confined`: isolating directives.
* `prepare_confined`: the whole preparation.
-/

namespace WordTemplate

open Xml Forest Xml.Document

variable {d d' : Document} {root n : NodeId} {F : Fence}

/-! ## Writing texts -/

namespace Xml.Document.Fenced

variable (h : Fenced F d)
include h

theorem setText (hn : Enclosed F d n) (content : String) : Confined F d (d.setText n content) := by
  have hchange : Confined F d (if content.isEmpty then (d.takeChildren n).2
      else ((d.takeChildren n).2.createText content).2.append n
        ((d.takeChildren n).2.createText content).1) := by
    have hempty := h.takeChildren fun _ => hn.not_outside
    split
    · exact hempty
    · exact hempty.trans (hempty.fenced.appendNew (hempty.fenced.createText _)
        (makes_addCopies hempty.fenced.wellFormed (.text content) .nil) (hempty.enclosed hn).mem_ids
        (.inr hn.not_outside)).1
  unfold Document.setText
  split
  · exact h.relabel hn.not_outside fun _ hK _ _ => hK.text content
  · exact hchange

theorem writeText (hn : Enclosed F d n) (content : String) : Confined F d (d.writeText n content) := by
  have hspace : Confined F d (d.setAttribute n Word.spaceAttribute "preserve") :=
    h.setAttribute hn.not_outside ..
  exact hspace.trans (hspace.fenced.setText (hspace.enclosed hn) content)

theorem createTextElement (content : String) : Confined F d (d.createTextElement content).2 := by
  have hmade := h.createElement Word.text (by simp [Word.madeNames])
  have hmakes := makes_addCopies h.wellFormed (.element ⟨Word.text, []⟩) .nil
  exact hmade.trans (hmade.fenced.writeText ⟨hmakes.mem_ids, (h.of_makes hmakes).1⟩ content)

/-- A run that is left without content is not the scope if the scope is on the other side of the fence. -/
theorem detachFromRun (hn : F.guarded → ¬ F.outside n) : Confined F d (d.detachFromRun n) := by
  have hout := h.detach hn
  unfold Document.detachFromRun
  dsimp only
  split
  · next run hparent =>
    split
    · next hrun =>
      refine hout.trans (hout.fenced.detach fun hguarded ho => ?_)
      rcases h.sibling (h.wellFormed.parent?_eq_some_iff.mp hparent) (hn hguarded) with rfl | hnot
      · rw [hout.fenced.not_named ho Word.run (by simp)] at hrun
        cases hrun
      · exact hnot ho
    · exact hout
  · exact hout

/-- Putting a new tree behind a node. -/
theorem insertAfterNew {d₁ : Document} {m : NodeId} {f : Forest Node} (h₁ : Confined F d d₁)
    (hm : d.Makes d₁ m f) (hn : Enclosed F d n) :
    Confined F d (d₁.insertAfter n m) ∧ Enclosed F (d₁.insertAfter n m) m :=
  h.insertNew h₁ hm hn (j := fun moved sibling => sibling ++ moved) fun _ _ => .inr rfl

theorem insertLine (hn : Enclosed F d n) (line : String) :
    Confined F d (d.insertLine n line).2 ∧ Enclosed F (d.insertLine n line).2 (d.insertLine n line).1 := by
  obtain ⟨h₁, hbr⟩ := h.insertAfterNew (h.createElement Word.lineBreak (by simp [Word.madeNames]))
    (makes_addCopies h.wellFormed (.element ⟨Word.lineBreak, []⟩) .nil) hn
  change Confined F d ((d.addCopies (tree (.element ⟨Word.lineBreak, []⟩) .nil)).insertAfter n d.freshId) at h₁
  change Enclosed F ((d.addCopies (tree (.element ⟨Word.lineBreak, []⟩) .nil)).insertAfter n d.freshId)
    d.freshId at hbr
  generalize hd₁ : (d.addCopies (tree (.element ⟨Word.lineBreak, []⟩) .nil)).insertAfter n d.freshId = d₁
    at h₁ hbr
  obtain ⟨f, -, hmakes⟩ := createTextElement_spec h₁.fenced.wellFormed line
  obtain ⟨h₂, ht⟩ := h₁.fenced.insertAfterNew (h₁.fenced.createTextElement line) hmakes hbr
  rw [insertLine_eq line hd₁]
  exact ⟨h₁.trans h₂, ht⟩

theorem insertLines (hn : Enclosed F d n) (lines : List String) :
    Confined F d (lines.foldl (fun (cursor, d) line => d.insertLine cursor line) (n, d)).2 := by
  induction lines generalizing d n with
  | nil => exact h.refl
  | cons line lines ih =>
    have hline := h.insertLine hn line
    rw [foldl_insertLine_cons]
    generalize d.insertLine n line = result at hline ⊢
    obtain ⟨cursor, d'⟩ := result
    exact hline.1.trans (ih hline.1.fenced hline.2)

/-- Writing a value into a text. -/
theorem writeValue (hn : Enclosed F d n) (value : String) : Confined F d (d.writeValue n value) := by
  have herase := h.eraseAttribute hn.not_outside Word.markAttribute
  have hwrite := fun content => herase.trans (herase.fenced.writeText (herase.enclosed hn) content)
  unfold Document.writeValue
  dsimp only
  split
  · exact hwrite ""
  · next first others _ =>
    exact (hwrite first).trans ((hwrite first).fenced.insertLines ((hwrite first).enclosed hn) others)

end Xml.Document.Fenced

/-! ## Isolating directives -/

theorem dropFront_confined (h : Fenced F d) (hn : Enclosed F d n) (count : Nat) :
    Confined F d (FlatText.dropFront d n count) := by
  unfold FlatText.dropFront
  dsimp only
  split
  · exact h.detachFromRun fun _ => hn.not_outside
  · exact h.setText hn _

/-- Isolating directives respects a fence. -/
theorem isolating_confined (F : Fence) : Isolating (Fenced F) (Enclosed F) (Confined F) where
  refl h := h.refl
  trans h h' := h.trans h'
  ready_kept _ h := h.fenced
  spot_kept _ h hn := h.enclosed hn
  writeText h hn content := h.writeText hn content
  setMark h hn name := h.setAttribute hn.not_outside Word.markAttribute name
  insertText h hn hput content := by
    obtain ⟨f, -, hmakes⟩ := createTextElement_spec h.wellFormed content
    exact h.insertNew (h.createTextElement content) hmakes hn hput
  dropFront h hn count := dropFront_confined h hn count

/-! ## Preparing a scope -/

section Prepare

theorem removeMarkup_confined (h : Fenced F d) : Confined F d (d.removeMarkup F.root) := by
  refine h.foldl fun d' hd' m hm => ?_
  -- What is below the scope is on this side of the fence.
  have hnot : ¬ F.outside m := by
    obtain ⟨hmem, hne⟩ := h.wellFormed.mem_descendants_iff.mp hm
    exact h.not_of_mem_root hmem hne
  rw [removeMarkupAt]
  split
  · exact hd'.fenced.detach fun _ => hnot
  · split
    · exact hd'.fenced.detachFromRun fun _ => hnot
    · exact hd'.fenced.refl

/-- Line breaks are looked for in the whole paragraph, wherever it is. -/
theorem trimLineBreaks_confined (h : Fenced F d) (hopen : ¬ F.guarded) (n : NodeId) :
    Confined F d (d.trimLineBreaks n) := by
  unfold Document.trimLineBreaks
  split
  · exact h.refl
  · dsimp only
    split
    · exact h.refl
    · exact h.foldl fun _ hd' m _ => hd'.fenced.detachFromRun fun hguarded => absurd hguarded hopen

/-- The texts of a scope are inside. -/
theorem enclosed_of_mem_textElements (h : Fenced F d) (hn : n ∈ d.textElements F.root) :
    Enclosed F d n := by
  obtain ⟨hmem, htext⟩ := h.wellFormed.mem_textElements_iff.mp hn
  refine ⟨h.wellFormed.mem_ids_of_mem_treeAt hmem, ?_⟩
  by_cases hne : n = F.root
  · subst hne
    intro ho
    rw [h.not_named ho Word.text (by simp)] at htext
    cases htext
  · exact h.not_of_mem_root hmem hne

/-- Preparing a scope respects the fence around it, and the markers are inside. -/
theorem prepare_confined (settings : Settings) (h : Fenced F d)
    (htrim : F.guarded → settings.trimLineBreaks = false) :
    Confined F d (prepare settings F.root d).2 ∧
      ∀ m ∈ (prepare settings F.root d).1, Enclosed F (prepare settings F.root d).2 m.node := by
  have hclean := removeMarkup_confined h
  refine (isolating_confined F).prepare h settings hclean
    (fun n hn => enclosed_of_mem_textElements hclean.fenced hn) fun hset _ hready n => ?_
  refine trimLineBreaks_confined hready (fun hguarded => ?_) n
  rw [htrim hguarded] at hset
  cases hset

end Prepare

end WordTemplate
