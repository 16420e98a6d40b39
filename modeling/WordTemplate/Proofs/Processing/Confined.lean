import WordTemplate.Proofs.Block.Confined
import WordTemplate.Proofs.Block.Enclosed
import WordTemplate.Proofs.Block.Reading
import WordTemplate.Proofs.Finishing
import WordTemplate.Proofs.Processing.Building
import WordTemplate.Proofs.Processing.Stages
import WordTemplate.Proofs.Word.Confined

/-!
# Processing stays in its scope
-/

namespace WordTemplate

open Xml Forest Binding Xml.Document

variable {σ : Type} {settings : Settings} {driver : Driver σ} {root : NodeId} {d d₂ d₃ : Document}
  {B : Forest Block} {B' : Forest Block.Placed} {T : Forest Block.Template} {F : Fence}

/-- The blocks that are found start and stop inside. -/
theorem inward_number (hmarkers : ∀ m ∈ (prepare settings F.root d).1,
      Enclosed F (prepare settings F.root d).2 m.node)
    (h : Block.nest (prepare settings F.root d).1 = .ok B) :
    Block.Inward F (prepare settings F.root d).2 (B.number 0) := by
  have hbounds := Block.bounds_nest (G := fun m => Enclosed F (prepare settings F.root d).2 m.node)
    hmarkers h
  intro b hb
  have hmem := List.mem_map_of_mem (f := Prod.snd) hb
  rw [← toList_map, map_snd_number] at hmem
  exact hbounds b.2 hmem

/-- Reading the blocks of a scope respects the fence around it, and their contents are taken out. -/
theorem Stages.confined (h : Stages settings F.root d B B' d₂ T d₃) (hd : Fenced F d)
    (htrim : F.guarded → settings.trimLineBreaks = false) :
    Confined F d d₃ ∧ ∀ t ∈ T.toList, ∀ c ∈ t.content, Block.Removed F d₃ c := by
  obtain ⟨hprepared, hmarkers⟩ := prepare_confined settings hd htrim
  obtain ⟨hplaced, hfirst⟩ := Block.placeAll_confined hprepared.fenced (inward_number hmarkers h.nest_eq)
    h.placeAll_eq
  obtain ⟨htaken, -, hremoved⟩ := Block.extractAll_confined hplaced.fenced hfirst
  rw [h.extractAll_eq] at htaken hremoved
  exact ⟨hprepared.trans (hplaced.trans htaken), hremoved⟩

/-! ## Finishing -/

section Finish

/-- What is below the scope is on this side of the fence. -/
theorem enclosed_of_mem_nodesBelow (h : Fenced F d) {node : Node} (hnode : node ∈ d.nodesBelow F.root) :
    Enclosed F d node.id := by
  obtain ⟨hmem, hne⟩ := h.wellFormed.mem_descendants_iff.mp (List.mem_map_of_mem hnode)
  exact ⟨h.wellFormed.mem_ids_of_mem_treeAt hmem, h.not_of_mem_root hmem hne⟩

theorem removeInsertionPoints_confined (h : Fenced F d) :
    Confined F d (d.removeInsertionPoints F.root) := by
  refine h.foldl fun d' hd' n hn => ?_
  obtain ⟨node, hnode, rfl⟩ := List.mem_map.mp hn
  have hin := enclosed_of_mem_nodesBelow h (List.mem_filter.mp hnode).1
  unfold Document.removeInsertionPoint
  split
  · exact hd'.fenced.refl
  · split
    · exact hd'.fenced.detach fun _ => hin.not_outside
    · exact hd'.fenced.eraseAttribute hin.not_outside _

/-- What is done at texts, drawings and cells respects a fence. Paragraphs may be anywhere. -/
theorem cleaning_confined (F : Fence) :
    Cleaning (Fenced F) (fun name d n => name ≠ Word.paragraph → Enclosed F d n) (Confined F) where
  refl h := h.refl
  trans h h' := h.trans h'
  ready_kept _ h := h.fenced
  spot_kept _ h hn hname := h.enclosed (hn hname)
  spot_paragraph _ _ hname := absurd rfl hname
  eraseMark h hn := h.eraseAttribute (hn (by decide)).not_outside _
  detachFromRun h hn := h.detachFromRun fun _ => (hn (by decide)).not_outside
  setNumber h hn number := h.setAttribute (hn (by decide)).not_outside "id" number
  ensureParagraph {d n} h hn := by
    have hin : Enclosed F d n := hn (by decide)
    unfold ensureParagraph
    split
    · exact h.refl
    · exact (h.appendNew (h.createElement Word.paragraph (by simp [Word.madeNames]))
        (makes_addCopies h.wellFormed (.element ⟨Word.paragraph, []⟩) .nil) hin.mem_ids (.inr hin.not_outside)).1

/-- Empty paragraphs are taken out only if the fence is not guarded. -/
theorem detachEmptyParagraph_confined {strip : Bool} (hstrip : F.guarded → strip = false) (hset : strip = true)
    (h : Fenced F d) (p : NodeId) : Confined F d (d.detachEmptyParagraph p) := by
  have hopen : ¬ F.guarded := fun hguarded => by rw [hstrip hguarded] at hset; cases hset
  rw [detachEmptyParagraph]
  split
  · exact h.detach fun hguarded => absurd hguarded hopen
  · exact h.refl

theorem removeDirectiveTexts_confined {strip : Bool} (h : Fenced F d) (hstrip : F.guarded → strip = false) :
    Confined F d (removeDirectiveTexts strip d F.root) :=
  (cleaning_confined F).removeDirectiveTexts h (fun _ hn _ => enclosed_of_mem_textElements h hn)
    fun hset _ p hd _ => detachEmptyParagraph_confined hstrip hset hd p

theorem renumberDrawings_confined (h : Fenced F d) : Confined F d (d.renumberDrawings F.root) :=
  (cleaning_confined F).renumberDrawings h fun _ hnode _ _ => enclosed_of_mem_nodesBelow h hnode

/-- Finishing a scope. -/
theorem finish_confined (strip : Bool) (h : Fenced F d) (hstrip : F.guarded → strip = false) :
    Confined F d (d.finish strip F.root) := by
  have hpoints := removeInsertionPoints_confined h
  exact hpoints.trans ((cleaning_confined F).finish hpoints.fenced
    (fun hd _ hn _ => enclosed_of_mem_textElements hd hn) (fun hd _ hnode _ _ => enclosed_of_mem_nodesBelow hd hnode)
    fun hset _ p hd _ => detachEmptyParagraph_confined hstrip hset hd p)

end Finish

/-! ## Processing -/

/-- Reading the blocks of a scope, whether it succeeds or not. -/
theorem runs_readBlocks_confined {w : Workspace σ} (h : Fenced F w.document)
    (htrim : F.guarded → settings.trimLineBreaks = false) :
    Runs (readBlocks settings F.root) w
      (fun T w' => Confined F w.document w'.document ∧
        ∀ t ∈ T.toList, ∀ c ∈ t.content, Block.Removed F w'.document c)
      fun _ w' => Confined F w.document w'.document := by
  obtain ⟨d, s⟩ := w
  obtain ⟨hprepared, hmarkers⟩ := prepare_confined settings h htrim
  rw [Runs, readBlocks_eq_match]
  cases hnest : Block.nest (prepare settings F.root d).1 with
  | error e => exact hprepared
  | ok B =>
    dsimp only
    cases hplace : Block.placeAll (B.number 0) (prepare settings F.root d).2 with
    | error e d₂ =>
      exact hprepared.trans (Block.placeAll_error_confined hprepared.fenced (inward_number hmarkers hnest) hplace)
    | ok B' d₂ =>
      have hall := Stages.confined ⟨hnest, hplace, rfl⟩ h htrim
      dsimp only
      split
      · next he =>
        split at he <;> cases he
        exact hall
      · next he =>
        split at he <;> cases he
        exact hall.1

section Run

variable {w : Workspace σ} (hdriver : driver.RewritesPlaceholders) (h : Fenced F w.document)
  (hanchor : F.outside F.root → ∀ kind number,
    w.document.attribute? F.root Word.insertionAttribute ≠ some (Block.startPoint kind number).id)
  (hguarded : F.guarded → settings.stripEmptyParagraphs = false ∧ settings.trimLineBreaks = false)
include hdriver h hanchor hguarded

/-- Expanding the blocks of a scope respects the fence around it, whether it succeeds or not. -/
theorem runs_expandBlocks_confined : RunsConfined F (expandBlocks settings driver F.root) w := by
  unfold expandBlocks
  refine (runs_readBlocks_confined h fun hg => (hguarded hg).2).bind ?_
  rintro T w₁ ⟨h₁, hremoved⟩
  have hready : Expandable settings.stripEmptyParagraphs F w₁.document T := by
    refine ⟨h₁.fenced, fun t ht c hc => ?_, fun hg _ => (hguarded hg).1, fun ho kind number => ?_⟩
    · obtain ⟨⟨hmem, hnot⟩, hne, -⟩ := hremoved t ht c hc
      exact ⟨hmem, hne, fun ho => absurd ho hnot, fun ho => absurd ho hnot, fun ho => absurd ho hnot⟩
    · rw [Document.attribute?, h₁.label?_eq ho]
      exact hanchor ho kind number
  refine runs_after h₁ ((runs_substitute_confined hdriver h₁.fenced).bind fun _ w₂ h₂ => ?_)
  exact runs_after h₂ (runs_expandAll_confined hdriver (hready.of_confined h₂))

/-- Processing a scope respects the fence around it, whether it succeeds or not. -/
theorem runs_processAt_confined : RunsConfined F (processAt settings driver F.root) w := by
  unfold processAt
  refine (runs_expandBlocks_confined hdriver h hanchor hguarded).bind fun _ w' h' => ?_
  have hfinish := finish_confined settings.stripEmptyParagraphs h'.fenced fun hg => (hguarded hg).1
  refine runs_change ?_
  dsimp only
  exact h'.trans hfinish

end Run

/-- What is not in the scope is beyond the fence around it. -/
theorem outside_of_beyond (wf : d.WellFormed) (hroot : root ∈ d.ids) {n : NodeId} (hn : d.Beyond root n) :
    d.Outside root n ∧ n ≠ root := by
  refine ⟨.inl hn, ?_⟩
  rintro rfl
  exact hn.2 (wf.mem_treeAt_self hroot)

/-- Processing a scope leaves every node beyond it alone, and the scope stays where it is, whether it
succeeds or not. Nothing is asked of the scope but that it is no text, run or row, and that it is not taken
for the anchor of a block. -/
theorem processAt_leaves_beyond {w : Workspace σ} (wf : w.document.WellFormed) (hroot : root ∈ w.document.ids)
    (hname : ∀ name ∈ [Word.text, Word.run, Word.row], w.document.isNamed root name = false)
    (hanchor : (w.document.parent? root).isSome → ∀ kind number,
      w.document.attribute? root Word.insertionAttribute ≠ some (Block.startPoint kind number).id)
    (hdriver : driver.RewritesPlaceholders) (hstrip : settings.stripEmptyParagraphs = false)
    (htrim : settings.trimLineBreaks = false) :
    w.document.Leaves (documentAfter (processAt settings driver root w)) (w.document.Beyond root) ∧
      (documentAfter (processAt settings driver root w)).parent? root = w.document.parent? root := by
  have hself := wf.outside_self_iff hroot
  have hfence : Fenced (w.document.fence root True) w.document := fenced_fence wf hroot True fun _ => hname
  have hruns : RunsConfined (w.document.fence root True) (processAt settings driver root) w :=
    runs_processAt_confined hdriver hfence (fun ho => hanchor (hself.mp ho)) fun _ => ⟨hstrip, htrim⟩
  have hall : Confined (w.document.fence root True) w.document
      (documentAfter (processAt settings driver root w)) := by
    rw [RunsConfined, Runs] at hruns
    cases hrun : processAt settings driver root w with
    | ok a w' => rwa [hrun] at hruns
    | error e w' => rwa [hrun] at hruns
  exact ⟨hall.leaves trivial fun n hn => outside_of_beyond wf hroot hn, hall.parent?_root hfence trivial hself⟩

/-- A body with two paragraphs, of which only the second has a block. -/
def twoParagraphs : Document :=
  Word.documentOf (Word.paragraphOf "{{A}}" ++ Word.paragraphOf "{{#A}}{{.}}{{/A}}")

theorem processAt_leaves_beyond_twoParagraphs :
    let w : Workspace Scopes := ⟨twoParagraphs, Scopes.ofModel (.object [("A", .array [.string "x"])])⟩
    let settings : Settings := { stripEmptyParagraphs := false }
    let after := documentAfter (processAt settings (ModelBinding.driver {}) ⟨5⟩ w)
    (twoParagraphs.children twoParagraphs.root)[1]? = some ⟨5⟩ ∧ after.innerText ⟨5⟩ = "x" ∧
      twoParagraphs.Leaves after (twoParagraphs.Beyond ⟨5⟩) ∧ after.parent? ⟨5⟩ = twoParagraphs.parent? ⟨5⟩ :=
  ⟨by decide +kernel, by decide +kernel, processAt_leaves_beyond (w := ⟨twoParagraphs, _⟩)
    (wellFormed_ofTree ..) (by decide +kernel) (by decide +kernel)
    (fun _ kind number h => by
      rw [show twoParagraphs.attribute? ⟨5⟩ Word.insertionAttribute = none by decide +kernel] at h
      cases h)
    (ModelBinding.rewritesPlaceholders {}) rfl rfl⟩

/-- A document whose body carries the name of an anchor from the beginning. -/
def anchorBody : Document :=
  .ofTree ⟨"w:document", []⟩ (tree (.element ⟨Word.body,
    [(Word.insertionAttribute, (Block.startPoint .collectionStart 0).id)]⟩) (Word.paragraphOf "{{#A}}x{{/A}}"))

/-- Such a body is taken for the anchor of its first block, and is taken out with it. -/
theorem anchorBody_taken_out :
    let w : Workspace Scopes := ⟨anchorBody, Scopes.ofModel (.object [("A", .array [.string "1"])])⟩
    let settings : Settings := { stripEmptyParagraphs := false }
    let after := documentAfter (processAt settings (ModelBinding.driver {}) (bodyOf anchorBody) w)
    (∀ name ∈ [Word.text, Word.run, Word.row], anchorBody.isNamed (bodyOf anchorBody) name = false) ∧
      (ModelBinding.driver {}).RewritesPlaceholders ∧
      anchorBody.parent? (bodyOf anchorBody) = some anchorBody.root ∧
      after.parent? (bodyOf anchorBody) = none ∧ bodyOf anchorBody ∉ after.children anchorBody.root :=
  ⟨by decide +kernel, ModelBinding.rewritesPlaceholders {}, by decide +kernel, by decide +kernel,
    by decide +kernel⟩

end WordTemplate
