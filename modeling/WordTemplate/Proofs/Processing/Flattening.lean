import WordTemplate.Proofs.Block.Accepting
import WordTemplate.Proofs.Directive.Finding
import WordTemplate.Proofs.Directive.Parsing
import WordTemplate.Proofs.Intact
import WordTemplate.Proofs.Processing.Rendering
import WordTemplate.Proofs.Showing

/-!
# Rendering and flattening

A template can be rendered, and what comes out can be flattened; or it can be flattened first, and its text
interpreted. Outside of tables both ways come to the same, however the text is cut into elements.

* `Renderable`: the documents of which this is said.
* `Renderable.runs_expandBlocks`, `Renderable.runs_processAt`: processing does what interpreting the outline of
  the text does.
* `renderedText?_eq`: both ways come to the same text, or fail together.
-/

namespace WordTemplate

open Xml Forest Binding

/-- Whether a scope can be rendered as its flattened text says: it can be processed and has no tables and rows, and
no element that may be taken out before is in a text or has a text in it. -/
structure Renderable (settings : Settings) (d : Document) (root : NodeId) : Prop where
  wellFormed : d.WellFormed
  exists_label : ∃ label, d.label? root = some label ∧ label.isNamed Word.text = false
  pristine : Pristine settings.takenOut (d.labelsAt root)
  whole : Whole settings.takenOut (d.labelsAt root)
  tableFree : TableFree (d.labelsAt root)

/-- What a text comes to, if its blocks are nested as they ought to be and nothing fails. -/
def Binding.ModelBinding.interpretedText? (b : ModelBinding) (text : String) (scopes : Scopes) : Option String :=
  (outline? (tokens text)).bind fun P => (b.interpret P 0 .all scopes).toOption.map String.ofList

/-- The flattened text of a scope after it has been processed, if nothing fails. -/
def Binding.ModelBinding.renderedText? (b : ModelBinding) (settings : Settings) (d : Document) (root : NodeId)
    (scopes : Scopes) : Option String :=
  match processAt settings b.driver root ⟨d, scopes⟩ with
  | .ok _ w => some (FlatText.ofDocument w.document root).text
  | .error _ _ => none

section Flattening

variable {settings : Settings} {d : Document} {root : NodeId} {b : ModelBinding} {scopes : Scopes}

theorem Renderable.processable (h : Renderable settings d root) : Processable settings d root where
  wellFormed := h.wellFormed
  exists_label := by
    obtain ⟨label, hlabel, htext⟩ := h.exists_label
    refine ⟨label, hlabel, htext, (h.tableFree label ?_).2⟩
    obtain ⟨node, cs, -, htree⟩ := h.wellFormed.exists_treeAt (h.wellFormed.mem_ids_of_label? hlabel)
    rw [Document.label?, htree] at hlabel
    obtain rfl : node.label = label := Option.some.inj hlabel
    rw [Document.labelsAt, htree, labels_tree, toList_tree]
    exact List.mem_cons_self ..
  pristine := h.pristine.mono fun _ => List.mem_append_right _

theorem map_directive_markersOf (text : String) :
    (Block.markersOf text).map Marker.directive = Directive.findAll text := by
  refine List.ext_getElem? fun i => ?_
  rw [Block.markersOf, List.getElem?_map, List.getElem?_mapIdx, Option.map_map]
  exact congrFun Option.map_id _

/-- The directives of the flattened text are those that the preparation finds. -/
theorem Renderable.map_directive_prepare (h : Renderable settings d root) :
    (prepare settings root d).1.map Marker.directive =
      (Block.markersOf (FlatText.ofDocument d root).text).map Marker.directive := by
  obtain ⟨label, hlabel, htext⟩ := h.exists_label
  obtain ⟨ls, hprep⟩ := prepare_reads h.wellFormed hlabel htext h.pristine h.whole
  rw [map_directive_markersOf, ← hprep.reads.directivesOf_eq]
  exact directivesOf_tokensFrom ..

/-- If the directives of the flattened text can be nested, its outline is that of the blocks of the document. -/
theorem Renderable.exists_framed (h : Renderable settings d root)
    (hnest : (Block.nest (Block.markersOf (FlatText.ofDocument d root).text)).isOk = true) :
    ∃ P B B' d₂ T d₃ ss, outline? (tokens (FlatText.ofDocument d root).text) = some P ∧ IsRegular P ∧
      IgnoresPlain P ∧ Stages settings root d B B' d₂ T d₃ ∧ Taken settings.mute d₃ root T ss ∧
      Framed d₃.contentOf .level P T ss := by
  obtain ⟨label, hlabel, htext⟩ := h.exists_label
  obtain ⟨ls, hprep⟩ := prepare_reads h.wellFormed hlabel htext h.pristine h.whole
  have hdirectives : directivesOf (tokens (FlatText.ofDocument d root).text) =
      Directive.findAll (FlatText.ofDocument d root).text := directivesOf_tokensFrom ..
  cases hB₀ : Block.nest (Block.markersOf (FlatText.ofDocument d root).text) with
  | error e =>
    rw [hB₀] at hnest
    cases hnest
  | ok B₀ =>
    obtain ⟨B, hB⟩ := Block.exists_nest_of_directives h.map_directive_prepare.symm hB₀
    obtain ⟨P, B', d₂, T, d₃, ss, -, hspells, hstages, htaken, hframed⟩ :=
      hprep.exists_framed h.processable h.tableFree hB
    refine ⟨P, B, B', d₂, T, d₃, ss, outline?_eq_some hspells, ?_, ?_, hstages, htaken, hframed⟩
    · refine hspells.isRegular (by simp) fun directive hdirective => ?_
      rw [hdirectives] at hdirective
      exact Directive.parse?_text hdirective
    · have hskips : SkipsIgnored false (directivesOf (tokens (FlatText.ofDocument d root).text) ++ []) := by
        rw [List.append_nil]
        exact hprep.skips
      exact (hspells.ignoresPlain (by simp) hskips).1

/-- Whether a scope displays what a text comes to, as far as it is `visible`, and has no anchors any more. -/
structure Expanded (settings : Settings) (d : Document) (root : NodeId) (result : Except Error (List Char)) :
    Prop where
  exists_displays : ∃ text shown, result = .ok text ∧
    visible settings.stripEmptyParagraphs shown = visible settings.stripEmptyParagraphs text ∧
    Displays Sign.IsFilled d root shown
  isAnchor_eq : ∀ l ∈ (d.labelsAt root).toList, l.isAnchor = false
  textsOutside : TextsOutside (fun l => l.isNamed Word.text || l.isMute settings.mute) (d.labelsAt root)

/-- The blocks are expanded to what the outline of the flattened text is interpreted as. -/
theorem Renderable.runs_expandBlocks (h : Renderable settings d root)
    (hnest : (Block.nest (Block.markersOf (FlatText.ofDocument d root).text)).isOk = true) (b : ModelBinding)
    (scopes : Scopes) :
    ∃ P, outline? (tokens (FlatText.ofDocument d root).text) = some P ∧
      Runs (expandBlocks settings b.driver root) ⟨d, scopes⟩
        (fun _ w' => Expanded settings w'.document root (b.interpret P 0 .all scopes))
        fun _ _ => Fails (b.interpret P 0 .all scopes) := by
  obtain ⟨P, B, B', d₂, T, d₃, ss, hP, hregular, hplain, hstages, htaken, hframed⟩ := h.exists_framed hnest
  refine ⟨P, hP, ?_⟩
  have hplace := hframed.anchorsInPlace htaken
  have hread : readBlocks settings root ⟨d, scopes⟩ = .ok T ⟨d₃, scopes⟩ := by
    rw [hstages.readBlocks_eq scopes, hplace.validate_eq, ite_self]
  rw [Runs, expandBlocks_of_readBlocks hread,
    ← htaken.expandVia_eq hplace (ModelBinding.rewritesPlaceholders b) scopes]
  refine (hframed.runs_expandVia htaken hregular hplain b scopes).mono ?_ fun _ _ he => he
  rintro - w' hrendered
  obtain ⟨ss', text, hS, hids, hfilled, hresult, hvisible⟩ := hrendered.exists_signs
  exact ⟨⟨text, shown ss', hresult, hvisible, hS.displays hids hfilled⟩,
    isAnchor_eq_false_of_anchorIds hS.sound (hS.signs_eq ▸ hids), hS.sound.textsOutside⟩

/-- Processing comes to what the outline of the flattened text is interpreted as. -/
theorem Renderable.runs_processAt (h : Renderable settings d root)
    (hstrip : settings.stripEmptyParagraphs = false)
    (hnest : (Block.nest (Block.markersOf (FlatText.ofDocument d root).text)).isOk = true) (b : ModelBinding)
    (scopes : Scopes) :
    ∃ P, outline? (tokens (FlatText.ofDocument d root).text) = some P ∧
      Runs (processAt settings b.driver root) ⟨d, scopes⟩
        (fun _ w' => (b.interpret P 0 .all scopes).toOption.map String.ofList =
          some (FlatText.ofDocument w'.document root).text)
        fun _ _ => Fails (b.interpret P 0 .all scopes) := by
  obtain ⟨P, hP, hruns⟩ := h.runs_expandBlocks hnest b scopes
  refine ⟨P, hP, hruns.bind ?_⟩
  rintro - w' ⟨⟨text, shown, hresult, hvisible, hdisplays⟩, hnone, -⟩
  refine runs_change ?_
  rw [hstrip] at hvisible ⊢
  rw [hresult, (hdisplays.finish hnone).ofDocument_text, show shown = text from hvisible]
  rfl

/-- Rendering commutes with flattening: if the directives of the flattened text can be nested, the text of the
processed scope is what the text from before is interpreted as. One fails if and only if the other does. -/
theorem renderedText?_eq (h : Renderable settings d root) (hstrip : settings.stripEmptyParagraphs = false)
    (hnest : (Block.nest (Block.markersOf (FlatText.ofDocument d root).text)).isOk = true) (b : ModelBinding)
    (scopes : Scopes) :
    (outline? (tokens (FlatText.ofDocument d root).text)).isSome = true ∧
      b.renderedText? settings d root scopes = b.interpretedText? (FlatText.ofDocument d root).text scopes := by
  obtain ⟨P, hP, hruns⟩ := h.runs_processAt hstrip hnest b scopes
  refine ⟨by rw [hP]; rfl, ?_⟩
  rw [ModelBinding.renderedText?, ModelBinding.interpretedText?, hP, Option.bind_some]
  rw [Runs] at hruns
  cases hrun : processAt settings b.driver root ⟨d, scopes⟩ with
  | ok u w' =>
    rw [hrun] at hruns
    exact hruns.symm
  | error e w' =>
    rw [hrun] at hruns
    cases hresult : b.interpret P 0 .all scopes with
    | ok text => exact absurd hresult (hruns text)
    | error e => rfl

/-- Whether a document of one tree can be rendered from its root is read off the labels. -/
theorem renderable_ofTree {tag : Element} {children : Forest Label}
    (htext : (Label.element tag).isNamed Word.text = false)
    (hpristine : Pristine settings.takenOut (tree (.element tag) children))
    (hwhole : Whole settings.takenOut (tree (.element tag) children))
    (hfree : TableFree (tree (.element tag) children)) :
    Renderable settings (.ofTree tag children) (Document.ofTree tag children).root where
  wellFormed := Document.wellFormed_ofTree tag children
  exists_label := by
    refine ⟨.element tag, ?_, htext⟩
    rw [Document.label?, Document.treeAt_root_ofTree]
    rfl
  pristine := by rwa [Document.labelsAt_root_ofTree]
  whole := by rwa [Document.labelsAt_root_ofTree]
  tableFree := by rwa [Document.labelsAt_root_ofTree]

end Flattening

/-- Two paragraphs with a block that begins in the first and ends in the second. -/
def itemsInParagraphs : Document :=
  Word.documentOf (Word.paragraphOf "a{{#A}}{{x}}" ++ Word.paragraphOf "b{{:s:}},{{/A}}c")

theorem renderedText?_itemsInParagraphs :
    ModelBinding.renderedText? {} { stripEmptyParagraphs := false } itemsInParagraphs itemsInParagraphs.root
        (Scopes.ofModel (.object [("A", .array [.object [("x", .string "1")], .object [("x", .string "2")]])])) =
      some "a1b,2bc" := by
  have hrenderable : Renderable { stripEmptyParagraphs := false } itemsInParagraphs itemsInParagraphs.root :=
    renderable_ofTree (by decide) (by decide) (by decide) (by decide)
  refine (renderedText?_eq hrenderable rfl (by decide +kernel) {} _).2.trans ?_
  decide +kernel

/-- The text of the processed body, and what the text from before is interpreted as. -/
def bothTexts (settings : Settings) (d : Document) (scopes : Scopes) : Option String × Option String :=
  (ModelBinding.renderedText? {} settings d d.root scopes,
    ModelBinding.interpretedText? {} (FlatText.ofDocument d d.root).text scopes)

/-- A paragraph with a mark in its text. -/
def markInText : Document :=
  Word.documentOf (tree (.element ⟨Word.paragraph, []⟩) (tree (.element ⟨Word.run, []⟩)
    (tree (.element ⟨Word.text, []⟩) (tree (.text "a") nil ++
      tree (.element ⟨Word.proofError, []⟩) (tree (.text "b") nil)))))

/-- What is taken out may have been a part of the text: a mark in a text, or a line break with a text in it. Nor are
the blocks of a row or a table expanded as their text says. -/
theorem renderedText?_ne_interpretedText? :
    (Pristine (Settings.takenOut { stripEmptyParagraphs := false }) (markInText.labelsAt markInText.root) ∧
      TableFree (markInText.labelsAt markInText.root) ∧
      bothTexts { stripEmptyParagraphs := false } markInText (Scopes.ofModel .null) = (some "a", some "ab")) ∧
    bothTexts { stripEmptyParagraphs := false, trimLineBreaks := true }
        (Word.documentOf (tree (.element ⟨Word.paragraph, []⟩) (tree (.element ⟨Word.run, []⟩)
          (Word.textOf "{{x}}" ++ tree (.element ⟨Word.lineBreak, []⟩) (Word.textOf "b")))))
        (Scopes.ofModel (.object [("x", .string "a")])) = (some "a", some "ab") ∧
    bothTexts { stripEmptyParagraphs := false }
        (.ofTree ⟨Word.row, []⟩ (Word.paragraphOf "{{?b}}x" ++ Word.paragraphOf "y{{/}}"))
        (Scopes.ofModel (.object [("b", .bool true)])) = (none, some "xy") ∧
    bothTexts { stripEmptyParagraphs := false }
        (.ofTree ⟨Word.table, []⟩ (Word.paragraphOf "x{{?b}}a" ++ Word.paragraphOf "c{{/}}y"))
        (Scopes.ofModel (.object [("b", .bool false)])) = (some "", some "xy") := by
  refine ⟨⟨?_, ?_, by decide +kernel⟩, by decide +kernel, by decide +kernel, by decide +kernel⟩
  · rw [markInText, labelsAt_root_documentOf]
    decide
  · rw [markInText, labelsAt_root_documentOf]
    decide

end WordTemplate
