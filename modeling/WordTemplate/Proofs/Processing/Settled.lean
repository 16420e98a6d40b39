import WordTemplate.Proofs.Processing.Artefacts
import WordTemplate.Proofs.Processing.Confined
import WordTemplate.Proofs.Settled

/-!
# Processing a document again

All markup is taken out of a scope before anything else is done to it. From then on there is a fence around the
scope with no markup on this side, so there is none in the end either, and the scope is settled after
processing. If its text has no directives, it stays as it is when it is processed again.

* `processAt_settles`: a scope is settled after processing.
* `processAt_of_settled`: processing a settled scope without directives comes to what the driver does.
* `process_again`: processing a document twice is processing it once.
-/

namespace WordTemplate

open Xml Forest Binding Xml.Document

variable {σ : Type} {settings : Settings} {driver : Driver σ} {root : NodeId} {d d' : Document}
  {w w' : Workspace σ}

/-! ## The first time -/

section First

/-- The fence around a scope without markup, in which no attribute is twice at an element. -/
def cleanFence (d : Document) (root : NodeId) : Fence :=
  ⟨root, d.Outside root, False, fun l => l.Unrepeated ∧ l.isMarkup = false, Label.Unrepeated⟩

theorem outlasts_unrepeated : Outlasts Label.Unrepeated where
  setAttribute h := h.setAttribute
  eraseAttribute h := h.eraseAttribute
  text _ := trivial

theorem tolerant_cleanFence : (cleanFence d root).Tolerant where
  inner :=
    { setAttribute := fun h => ⟨h.1.setAttribute, by
        rw [Label.isMarkup_congr Label.name?_setAttribute]
        exact h.2⟩
      eraseAttribute := fun h => ⟨h.1.eraseAttribute, by
        rw [Label.isMarkup_congr Label.name?_eraseAttribute]
        exact h.2⟩
      text := fun content => ⟨outlasts_unrepeated.text content, rfl⟩ }
  top := outlasts_unrepeated
  made name hname := by
    refine ⟨List.nodup_nil, ?_⟩
    revert name
    decide

variable (wf : d.WellFormed) (hroot : root ∈ d.ids)
  (hname : (d.parent? root).isSome → ∀ name ∈ [Word.text, Word.run, Word.row], d.isNamed root name = false)
include wf hroot hname

/-- Taking markup out of a scope does not put the scope anywhere. -/
theorem isSome_parent?_of_removeMarkup (h : ((d.removeMarkup root).parent? root).isSome) :
    (d.parent? root).isSome := by
  have hconfined := removeMarkup_confined (fenced_fence wf hroot False hname)
  obtain ⟨p, hp⟩ := Option.isSome_iff_exists.mp h
  have hmem := hconfined.fenced.wellFormed.parent?_eq_some_iff.mp hp
  exact (wf.outside_self_iff hroot).mp (hconfined.fenced.of_mem_children p hmem)

variable (hunrepeated : ∀ l ∈ (d.labelsAt root).toList, l.Unrepeated)
include hunrepeated

theorem fenced_removeMarkup :
    Fenced (cleanFence (d.removeMarkup root) root) (d.removeMarkup root) := by
  have hthins : Thins [] d (d.removeMarkup root) root := thins_removeMarkup wf
  have wf₁ := hthins.grows.wellFormed
  obtain ⟨hsubset, hclean⟩ := removeMarkup_clears wf hroot
  have hlabel : ∀ n ∈ ids ((d.removeMarkup root).treeAt root), ∀ l,
      (d.removeMarkup root).label? n = some l → l.Unrepeated := fun n hn l hl => by
    obtain ⟨node, hnode, rfl⟩ := List.mem_map.mp (hsubset n hn)
    rw [hthins.label?_eq, wf.label?_of_mem_treeAt hnode] at hl
    exact hunrepeated l (mem_labels_iff.mpr ⟨node, hnode, Option.some.inj hl⟩)
  have hroot₁ := hthins.grows.mem_ids root hroot
  refine fenced_outside wf₁ hroot₁ rfl (fun hparent name hmem => ?_) tolerant_cleanFence
    (fun n l hl hn hne => ⟨hlabel n hn l hl, hclean n (wf₁.mem_descendants_iff.mpr ⟨hn, hne⟩) l hl⟩)
    fun l hl => hlabel root (wf₁.mem_treeAt_self hroot₁) l hl
  rw [Document.isNamed, Document.name?, hthins.label?_eq]
  exact hname (isSome_parent?_of_removeMarkup wf hroot hname hparent) name hmem

end First

/-- A scope behind a fence that keeps markup away is settled after it was finished. -/
theorem finish_settled_of_fenced {F : Fence} (hinner : ∀ l, F.inner l → l.Unrepeated ∧ l.isMarkup = false)
    (htop : ∀ l, d.label? F.root = some l → l.Unrepeated) (hopen : ¬ F.guarded) (strip : Bool)
    (h : Fenced F d) : (d.finish strip F.root).WellFormed ∧ Settled F.root (d.finish strip F.root) := by
  have hend := (finish_confined strip h fun hg => absurd hg hopen).fenced
  have hunrepeated : UnrepeatedAt F.root d := by
    refine ⟨h.root_mem, fun n hn l hl => ?_⟩
    by_cases hne : n = F.root
    · exact htop l (hne ▸ hl)
    · exact (hinner l (h.inner n l hl (h.not_of_mem_root hn hne) hne)).1
  refine ⟨hend.wellFormed, finish_settled h.wellFormed hunrepeated (fun n hn l hl => ?_) fun htext => ?_⟩
  · obtain ⟨hmem, hne⟩ := hend.wellFormed.mem_descendants_iff.mp hn
    exact (hinner l (hend.inner n l hl (hend.not_of_mem_root hmem hne) hne)).2
  · by_contra hparent
    -- A scope with a parent is outside, and then it is no text.
    obtain ⟨p, hp⟩ := Option.ne_none_iff_exists'.mp hparent
    have ho := hend.of_mem_children p (hend.wellFormed.parent?_eq_some_iff.mp hp)
    rw [hend.not_named ho Word.text (by simp)] at htext
    cases htext

/-- Reading the blocks of a scope does not depend on the markup there. -/
theorem readBlocks_removeMarkup (settings : Settings) (wf : d.WellFormed) (hroot : root ∈ d.ids) (s : σ) :
    readBlocks settings root ⟨d.removeMarkup root, s⟩ = readBlocks settings root ⟨d, s⟩ := by
  have hthins : Thins [] d (d.removeMarkup root) root := thins_removeMarkup wf
  have hagain : (d.removeMarkup root).removeMarkup root = d.removeMarkup root :=
    removeMarkup_eq hthins.grows.wellFormed (removeMarkup_clears wf hroot).2
  have hprepare : prepare settings root (d.removeMarkup root) = prepare settings root d := by
    unfold prepare
    rw [hagain]
  rw [readBlocks_eq_match, readBlocks_eq_match, hprepare]

/-- A scope is settled after processing. -/
theorem processAt_settles (wf : w.document.WellFormed) (hroot : root ∈ w.document.ids)
    (hname : (w.document.parent? root).isSome → ∀ name ∈ [Word.text, Word.run, Word.row],
      w.document.isNamed root name = false)
    (hunrepeated : ∀ l ∈ (w.document.labelsAt root).toList, l.Unrepeated)
    (hanchor : (w.document.parent? root).isSome → ∀ kind number,
      w.document.attribute? root Word.insertionAttribute ≠ some (Block.startPoint kind number).id)
    (hdriver : driver.RewritesPlaceholders) (hrun : processAt settings driver root w = .ok () w') :
    w'.document.WellFormed ∧ Settled root w'.document := by
  obtain ⟨d, s⟩ := w
  have hthins : Thins [] d (d.removeMarkup root) root := thins_removeMarkup wf
  have wf₁ := hthins.grows.wellFormed
  have hroot₁ := hthins.grows.mem_ids root hroot
  have hfence := fenced_removeMarkup wf hroot hname hunrepeated
  -- The run is the same as one from the document without markup.
  have hrun₁ : processAt settings driver root ⟨d.removeMarkup root, s⟩ = .ok () w' := by
    rw [← hrun, processAt_eq, processAt_eq, readBlocks_removeMarkup settings wf hroot]
  obtain ⟨w₁, hexpand, hfinish⟩ := exists_of_processAt hrun₁
  have hruns : RunsConfined (cleanFence (d.removeMarkup root) root)
      (expandBlocks settings driver root) ⟨d.removeMarkup root, s⟩ :=
    runs_expandBlocks_confined hdriver hfence (fun ho kind number => by
      have hparent := isSome_parent?_of_removeMarkup wf hroot hname ((wf₁.outside_self_iff hroot₁).mp ho)
      rw [Document.attribute?, hthins.label?_eq]
      exact hanchor hparent kind number) fun hg => absurd hg id
  rw [RunsConfined, Runs, hexpand] at hruns
  have hself : ∀ l, w₁.document.label? root = some l → l.Unrepeated := fun l hl => by
    by_cases ho : (cleanFence (d.removeMarkup root) root).outside root
    · -- A scope with a parent has kept its label.
      have hlabel : w₁.document.label? root = (d.removeMarkup root).label? root := hruns.label?_eq ho
      rw [hlabel, hthins.label?_eq] at hl
      obtain ⟨node, cs, rfl, htree⟩ := wf.exists_treeAt hroot
      have hnode : node ∈ (d.treeAt node.id).toList := by simp [htree, tree, toList]
      rw [wf.label?_of_mem_treeAt hnode] at hl
      exact hunrepeated l (mem_labels_iff.mpr ⟨node, hnode, Option.some.inj hl⟩)
    · exact hruns.fenced.top l hl ho
  rw [hfinish]
  exact finish_settled_of_fenced (F := cleanFence (d.removeMarkup root) root) (fun _ h => h) hself id
    settings.stripEmptyParagraphs hruns.fenced

/-! ## The second time -/

/-- Where there are no placeholders, none is rewritten. -/
theorem Rewrites.eq_of_placeholders_eq_nil {ns : List NodeId} (h : Rewrites root d ns d')
    (hnone : d.placeholders root = []) : d' = d := by
  cases h with
  | refl => rfl
  | write value _ hn =>
    rw [hnone] at hn
    cases hn

/-- Nothing is done to read the blocks of a settled scope without directives. -/
theorem readBlocks_of_settled (settings : Settings) (h : Settled root d) (wf : d.WellFormed)
    (hnone : Directive.findAll (FlatText.ofDocument d root).text = []) (s : σ) :
    readBlocks settings root ⟨d, s⟩ = .ok .nil ⟨d, s⟩ := by
  have hprepare : prepare settings root d = ([], d) := by
    unfold prepare isolateDirectives
    dsimp only
    rw [removeMarkup_eq wf h.markup, hnone]
    cases settings.trimLineBreaks <;> rfl
  have hstages : Stages settings root d .nil .nil d .nil d := by
    refine ⟨?_, ?_, rfl⟩ <;> rw [hprepare] <;> rfl
  rw [hstages.readBlocks_eq]
  cases settings.validate <;> rfl

/-- Processing a settled scope without directives comes to what the driver does. -/
theorem processAt_of_settled (settings : Settings) (h : Settled root d) (wf : d.WellFormed)
    (hnone : Directive.findAll (FlatText.ofDocument d root).text = [])
    (hdriver : driver.RewritesPlaceholders) (s : σ) :
    documentAfter (processAt settings driver root ⟨d, s⟩) = d ∧
      ∀ w', driver.substitute root ⟨d, s⟩ = .ok () w' → processAt settings driver root ⟨d, s⟩ = .ok () w' := by
  have hprocess : processAt settings driver root ⟨d, s⟩ =
      match driver.substitute root ⟨d, s⟩ with
      | .error e w' => .error (.binding e) w'
      | .ok () w' => .ok () { w' with document := w'.document.finish settings.stripEmptyParagraphs root } := by
    rw [processAt_eq, readBlocks_of_settled settings h wf hnone]
    dsimp only
    rw [show expandVia Block.resolveAnchor settings driver root .nil ⟨d, s⟩ =
      EStateM.bind (Block.ask (driver.substitute root)) (fun _ => pure ()) ⟨d, s⟩ from rfl]
    simp only [EStateM.bind, Block.ask, EStateM.adaptExcept]
    cases driver.substitute root ⟨d, s⟩ <;> rfl
  -- The driver has nothing to write into.
  have hsame := hdriver root ⟨d, s⟩
  rw [Runs] at hsame
  rw [hprocess]
  cases hsubst : driver.substitute root ⟨d, s⟩ with
  | error e w' =>
    rw [hsubst] at hsame
    obtain ⟨ns, hns⟩ := hsame
    exact ⟨hns.eq_of_placeholders_eq_nil (h.placeholders_eq wf), fun _ he => by cases he⟩
  | ok u w' =>
    rw [hsubst] at hsame
    obtain ⟨ns, hns⟩ := hsame
    obtain ⟨d', s'⟩ := w'
    obtain rfl : d' = d := hns.eq_of_placeholders_eq_nil (h.placeholders_eq wf)
    dsimp only
    rw [h.finish_eq wf]
    exact ⟨rfl, fun _ he => by cases he; rfl⟩

/-! ## Both times -/

/-- The body of a document is its root, or a node that is named like a body. -/
theorem bodyOf_cases (d : Document) : bodyOf d = d.root ∨
    ∃ node ∈ (d.treeAt d.root).toList, node.id = bodyOf d ∧ node.label.isNamed Word.body = true := by
  unfold bodyOf
  cases hfind : (d.treeAt d.root).toList.find? (·.label.isNamed Word.body) with
  | none => exact .inl rfl
  | some node =>
    have hname := List.find?_some hfind
    exact .inr ⟨node, List.mem_of_find?_eq_some hfind, rfl, hname⟩

theorem bodyOf_mem_ids (wf : d.WellFormed) : bodyOf d ∈ d.ids := by
  rcases bodyOf_cases d with h | ⟨node, hnode, h, -⟩
  · exact h ▸ wf.root_mem
  · exact h ▸ wf.mem_ids_of_mem_treeAt (List.mem_map_of_mem hnode)

/-- A body that is not at the top is named like one. -/
theorem isNamed_bodyOf_eq_false (wf : d.WellFormed) (htop : d.parent? d.root = none)
    (hparent : (d.parent? (bodyOf d)).isSome) {name : String} (hname : name ≠ Word.body) :
    d.isNamed (bodyOf d) name = false := by
  rcases bodyOf_cases d with h | ⟨node, hnode, h, hbody⟩
  · rw [h, htop] at hparent
    cases hparent
  · have hbody : node.label.name? = some Word.body := by simpa [Label.isNamed] using hbody
    rw [← h, Document.isNamed, Document.name?, wf.label?_of_mem_treeAt hnode, Option.bind_some, hbody]
    simpa using Ne.symm hname

section Again

variable {σ' : Type} {settings' : Settings} {driver' : Driver σ'}

/-- Processing a document again changes nothing, if no directive is left in its text, and fails only if the
driver does. -/
theorem process_again (wf : w.document.WellFormed) (htop : w.document.parent? w.document.root = none)
    (hunrepeated : ∀ l ∈ (w.document.labelsAt (bodyOf w.document)).toList, l.Unrepeated)
    (hanchor : (w.document.parent? (bodyOf w.document)).isSome → ∀ kind number,
      w.document.attribute? (bodyOf w.document) Word.insertionAttribute ≠
        some (Block.startPoint kind number).id)
    (hdriver : driver.RewritesPlaceholders) (hrun : process settings driver w = .ok () w')
    (hbody : bodyOf w'.document = bodyOf w.document)
    (hnone : Directive.findAll (FlatText.ofDocument w'.document (bodyOf w'.document)).text = [])
    (hdriver' : driver'.RewritesPlaceholders) (s : σ') :
    documentAfter (process settings' driver' ⟨w'.document, s⟩) = w'.document ∧
      ∀ w'', driver'.substitute (bodyOf w'.document) ⟨w'.document, s⟩ = .ok () w'' →
        process settings' driver' ⟨w'.document, s⟩ = .ok () w'' := by
  obtain ⟨wf', hsettled⟩ := processAt_settles wf (bodyOf_mem_ids wf) (fun hparent name hname => by
    refine isNamed_bodyOf_eq_false wf htop hparent ?_
    revert name
    decide) hunrepeated hanchor hdriver hrun
  rw [← hbody] at hsettled
  exact processAt_of_settled settings' hsettled wf' hnone hdriver' s

end Again

/-- A body with markup, two drawings of the same number and a block, and markup behind it. -/
def drawingsAndBlock : Document :=
  .ofTree ⟨"w:document", []⟩ (tree (.element ⟨Word.body, []⟩)
    (tree (.element ⟨Word.bookmarkStart, []⟩) .nil ++ tree (.element ⟨Word.drawing, [("id", "1")]⟩) .nil ++
      tree (.element ⟨Word.drawing, [("id", "1")]⟩) .nil ++ Word.tableOf [["{{#A}}{{.}}"], ["{{/A}}"]]) ++
    tree (.element ⟨Word.proofError, []⟩) .nil)

theorem process_again_drawingsAndBlock :
    let s := Scopes.ofModel (.object [("A", .array [.string "x"])])
    ∃ w', process {} (ModelBinding.driver {}) ⟨drawingsAndBlock, s⟩ = .ok () w' ∧
      w'.document.innerText (bodyOf w'.document) = "x" ∧
      documentAfter (process { trimLineBreaks := true } (ModelBinding.driver {}) ⟨w'.document, s⟩) =
        w'.document := by
  intro s
  obtain ⟨_, w', hrun⟩ := exists_of_errorOf?_eq_none
    (r := process {} (ModelBinding.driver {}) ⟨drawingsAndBlock, s⟩) (by decide +kernel)
  have hafter : w'.document = documentAfter (process {} (ModelBinding.driver {}) ⟨drawingsAndBlock, s⟩) := by
    rw [hrun]
    rfl
  refine ⟨w', hrun, ?_, (process_again (w := ⟨drawingsAndBlock, s⟩) (wellFormed_ofTree ..)
    (by decide +kernel) (by decide +kernel) (fun _ kind number h => ?_)
    (ModelBinding.rewritesPlaceholders {}) hrun ?_ ?_ (ModelBinding.rewritesPlaceholders {}) s).1⟩
  · rw [hafter]
    decide +kernel
  · rw [show drawingsAndBlock.attribute? (bodyOf drawingsAndBlock) Word.insertionAttribute = none by
      decide +kernel] at h
    cases h
  · rw [hafter]
    decide +kernel
  · rw [hafter]
    decide +kernel

/-- A body inside of a paragraph, with nothing but directives, and markup behind it. -/
def bodyInParagraph : Document :=
  .ofTree ⟨"w:document", []⟩ (tree (.element ⟨Word.paragraph, []⟩) (tree (.element ⟨"w:pPr", []⟩)
    (tree (.element ⟨Word.body, []⟩) (Word.runOf "{{?b}}{{/}}"))) ++ tree (.element ⟨Word.proofError, []⟩) .nil)

/-- Such a paragraph is taken out with the body, so the second time the whole document is processed. -/
theorem process_again_bodyInParagraph_ne :
    let s := Scopes.ofModel (.object [("b", .bool true)])
    let driver := ModelBinding.driver {}
    ∃ w', process {} driver ⟨bodyInParagraph, s⟩ = .ok () w' ∧ driver.RewritesPlaceholders ∧
      (∀ root ∈ [bodyOf bodyInParagraph, bodyOf w'.document],
        Directive.findAll (FlatText.ofDocument w'.document root).text = []) ∧
      documentAfter (process {} driver ⟨w'.document, s⟩) ≠ w'.document := by
  intro s driver
  obtain ⟨_, w', hrun⟩ := exists_of_errorOf?_eq_none
    (r := process {} driver ⟨bodyInParagraph, s⟩) (by decide +kernel)
  have hafter : w'.document = documentAfter (process {} driver ⟨bodyInParagraph, s⟩) := by
    rw [hrun]
    rfl
  refine ⟨w', hrun, ModelBinding.rewritesPlaceholders {}, ?_, ?_⟩
  · rw [hafter]
    decide +kernel
  · rw [hafter]
    decide +kernel

end WordTemplate
