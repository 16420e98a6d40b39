import WordTemplate.Proofs.Block.Spacing
import WordTemplate.Proofs.Processing.Artefacts
import WordTemplate.Proofs.Processing.Checking
import WordTemplate.Proofs.Word.Writing

/-!
# Blanks at the ends of texts

Blanks at the ends of a text count only if its element says so. Writing a value sees to that, so it
keeps a document in which all blanks count. Isolating a directive does not: a text that loses its front
to a directive may begin with a blank then, and its element does not say that it counts.

Nothing else happens to blanks. A text of a processed document whose blanks do not count is what is left of one of
the template behind a directive, so only blanks at the beginning of a text can be lost.

* `isolation_loses_blank`: a blank is lost.
* `processAt_bareTexts`: what texts say whose blanks do not count.
* `processAt_lastBlank`: no blank at the end of a text is lost.
-/

namespace WordTemplate

open Xml Forest Binding

/-- Whether a text begins or ends with a blank. -/
def hasOuterBlank (s : String) : Bool :=
  s.toList.head?.any Text.isBlank || s.toList.getLast?.any Text.isBlank

/-- Whether all blanks at the ends of texts count. -/
def SpaceSafe : Forest Label → Prop
  | .nil => True
  | .cons l cs rest =>
    (l.isNamed Word.text = true → hasOuterBlank (innerText cs) = true → l.preserves = true) ∧
      SpaceSafe cs ∧ SpaceSafe rest

instance decidableSpaceSafe : (f : Forest Label) → Decidable (SpaceSafe f)
  | .nil => inferInstanceAs (Decidable True)
  | .cons l cs rest =>
    have := decidableSpaceSafe cs
    have := decidableSpaceSafe rest
    inferInstanceAs (Decidable ((l.isNamed Word.text = true →
      hasOuterBlank (innerText cs) = true → l.preserves = true) ∧ SpaceSafe cs ∧ SpaceSafe rest))

/-- What the texts say whose blanks do not count, in document order. -/
def bareTexts : Forest Label → List String
  | .nil => []
  | .cons l cs rest =>
    (if l.isNamed Word.text && !l.preserves then [innerText cs] else []) ++ bareTexts cs ++ bareTexts rest

/-- Whether pieces of text have nothing below them, and texts have only pieces of text below them. -/
def PlainTexts (f : Forest Label) : Prop :=
  Each (Spaced fun _ => True) f

instance (f : Forest Label) : Decidable (PlainTexts f) :=
  inferInstanceAs (Decidable (Each (Spaced fun _ => True) f))

section Spacing

variable {d₀ d : Document} {scope : NodeId} {up : List (Frame Node)} {fr : Frame Node}
  {l cs r X : Forest Node} {node : Node} {f g : Forest Label} {label : Label} {Q : List Char → Prop}

@[simp] theorem spaceSafe_nil : SpaceSafe nil := trivial

@[simp] theorem spaceSafe_append : SpaceSafe (f ++ g) ↔ SpaceSafe f ∧ SpaceSafe g := by
  induction f with
  | nil => simp
  | cons l cs rest _ ih => simp only [cons_append, SpaceSafe, ih, and_assoc]

@[simp] theorem spaceSafe_textChildren (content : String) : SpaceSafe (textChildren content) := by
  unfold textChildren
  split <;> simp [SpaceSafe, tree, Label.isNamed, Label.name?]

/-- Whether all blanks count depends on what the other texts say. -/
theorem spaceSafe_iff : SpaceSafe f ↔ ∀ s ∈ bareTexts f, hasOuterBlank s = false := by
  induction f with
  | nil => simp [bareTexts]
  | cons l cs rest ihc ihr =>
    rw [SpaceSafe, ihc, ihr, bareTexts]
    by_cases htext : l.isNamed Word.text = true <;> by_cases hp : l.preserves = true <;>
      simp [htext, hp, or_imp, forall_and]

/-- What is known of the texts whose blanks do not count, as it stands in them. -/
theorem each_spaced_iff : Each (Spaced Q) f ↔ PlainTexts f ∧ ∀ s ∈ bareTexts f, Q s.toList := by
  induction f with
  | nil => simp [bareTexts, PlainTexts]
  | cons l cs rest ihc ihr =>
    rw [PlainTexts] at ihc ihr ⊢
    rw [each_cons, each_cons, ihc, ihr, bareTexts, List.forall_mem_append, List.forall_mem_append]
    constructor
    · rintro ⟨hl, ⟨hcs, hqcs⟩, hrest, hqrest⟩
      refine ⟨⟨hl.mono fun _ _ => trivial, hcs, hrest⟩, ⟨fun s hs => ?_, hqcs⟩, hqrest⟩
      split at hs
      · next hbare =>
        rw [Bool.and_eq_true, Bool.not_eq_true'] at hbare
        rw [List.mem_singleton.mp hs, innerText_eq_charactersOf (hl.isElement_eq hbare.1)]
        exact hl.fits hbare.1 hbare.2
      · cases hs
    · rintro ⟨⟨hl, hcs, hrest⟩, ⟨hself, hqcs⟩, hqrest⟩
      refine ⟨⟨hl.kids_eq_nil, hl.isElement_eq, fun htext hp => ?_⟩, ⟨hcs, hqcs⟩, hrest, hqrest⟩
      rw [← innerText_eq_charactersOf (hl.isElement_eq htext)]
      exact hself _ (by simp [htext, hp])

@[simp] theorem spaceSafe_textElement (content : String) : SpaceSafe (textElement content) :=
  ⟨fun _ _ => preserves_setAttribute rfl, spaceSafe_textChildren content, trivial⟩

@[simp] theorem spaceSafe_lineForest (lines : List String) : SpaceSafe (lineForest lines) := by
  induction lines with
  | nil => trivial
  | cons line lines ih =>
    refine spaceSafe_append.mpr ⟨⟨fun h => absurd h (by decide), trivial, trivial⟩, ?_⟩
    exact spaceSafe_append.mpr ⟨spaceSafe_textElement line, ih⟩

/-- In a spot that is not within a text, what stands there can be looked at alone. -/
theorem spaceSafe_wrap (h : ∀ fr ∈ up, fr.value.label.isNamed Word.text = false) :
    SpaceSafe (labels (wrap up X)) ↔
      SpaceSafe (labels X) ∧ ∀ fr ∈ up, SpaceSafe (labels fr.before) ∧ SpaceSafe (labels fr.after) := by
  induction up generalizing X with
  | nil => simp [wrap]
  | cons fr up ih =>
    have hfr := h fr (List.mem_cons_self ..)
    rw [wrap, ih fun fr' hfr' => h fr' (List.mem_cons_of_mem _ hfr')]
    simp only [labels_append, labels_cons, spaceSafe_append, SpaceSafe, hfr, Bool.false_eq_true,
      false_implies, true_and, List.mem_cons, forall_eq_or_imp]
    tauto

/-- Writing a value into a text that is not in another one keeps all blanks. -/
theorem spaceSafe_writeValue (h : d₀.Within d scope) (wf₀ : d₀.WellFormed) (hs : scope ∈ d₀.ids)
    (ht : d.treeAt scope = wrap (fr :: up) (l ++ cons node cs r)) (hl : node.label.isElement = true)
    (hup : ∀ fr' ∈ fr :: up, fr'.value.label.isNamed Word.text = false)
    (hsafe : SpaceSafe (d.labelsAt scope)) (value : String) :
    SpaceSafe ((d.writeValue node.id value).labelsAt scope) := by
  obtain ⟨first, others, cs', f, -, hcs, hf, -, ht'⟩ :=
    Document.writeValue_spec h wf₀ hs ht hl value
  rw [Document.labelsAt, ht, spaceSafe_wrap hup, labels_append, labels_cons, spaceSafe_append] at hsafe
  obtain ⟨⟨hbefore, -, -, hafter⟩, houter⟩ := hsafe
  have hwritten : (writtenLabel node.label).preserves = true :=
    preserves_setAttribute (by simpa using hl)
  rw [Document.labelsAt, ht', spaceSafe_wrap hup]
  simp only [labels_append, labels_cons, cons_append, spaceSafe_append, SpaceSafe, hcs, hf]
  exact ⟨⟨hbefore, fun _ _ => hwritten, spaceSafe_textChildren first, spaceSafe_lineForest others,
    hafter⟩, houter⟩

end Spacing

/-- A directive that ends in a second text of its run, with more text behind it. -/
def splitPlaceholder : Document :=
  Word.documentOf (tree (.element ⟨Word.paragraph, []⟩) (tree (.element ⟨Word.run, []⟩)
    (Word.textOf "\x7b\x7ba" ++ Word.textOf "\x7d\x7d b")))

/-- The blank behind a directive does not count any more when the directive has been isolated. -/
theorem isolation_loses_blank :
    let processed : Forest Label := tree (.element ⟨Word.body, []⟩)
      (tree (.element ⟨Word.paragraph, []⟩) (tree (.element ⟨Word.run, []⟩)
        (textElement "x" ++ Word.textOf " b")))
    SpaceSafe (splitPlaceholder.labelsAt splitPlaceholder.root) ∧
      processedLabels {} (.object [("a", .string "x")]) splitPlaceholder = .ok processed ∧
      ¬ SpaceSafe processed := by
  refine ⟨?_, by decide +kernel, by decide⟩
  rw [splitPlaceholder, labelsAt_root_documentOf]
  decide

/-! ## Texts whose blanks do not count -/

section Processing

open Xml.Document

variable {σ : Type} {Q : List Char → Prop} {settings : Settings} {driver : Driver σ} {root n : NodeId}
  {d d₂ d₃ : Document} {B : Forest Block} {B' : Forest Block.Placed} {T : Forest Block.Template}
  {w w' : Workspace σ}

/-! ### Preparing -/

section Prepare

variable (wf : d.WellFormed) (h : Each (Spacing Q) d.trees)
include wf h

theorem removeMarkup_spaced (root : NodeId) : Tracks (Spacing Q) d (d.removeMarkup root) := by
  refine Tracks.foldl wf h fun d' hd' n _ => ?_
  have hd := Tracks.refl hd'.wellFormed hd'.each
  rw [removeMarkupAt]
  split
  · next hn => exact hd.detach_spaced (name?_ne_none_of_isNamed hn)
  · split
    · next hn =>
      rw [Bool.or_eq_true] at hn
      exact hd.detachFromRun_spaced (hn.elim name?_ne_none_of_isNamed name?_ne_none_of_isNamed)
    · exact hd

theorem trimLineBreaks_spaced (n : NodeId) : Tracks (Spacing Q) d (d.trimLineBreaks n) := by
  rw [trimLineBreaks]
  split
  · exact .refl wf h
  dsimp only
  split
  · exact .refl wf h
  · refine Tracks.foldl wf h fun d' hd' m hm => ?_
    have hbreak : d.isNamed m Word.lineBreak = true := by
      rcases List.mem_append.mp hm with hm | hm <;> exact (List.mem_filter.mp hm).2
    exact (Tracks.refl hd'.wellFormed hd'.each).detachFromRun_spaced
      (hd'.gains.name?_ne_none wf (name?_ne_none_of_isNamed hbreak))

/-- After the preparation directives are in texts. -/
theorem prepare_spaced (settings : Settings) (hQ : SuffixClosed Q) (root : NodeId) :
    Tracks (Spacing Q) d (prepare settings root d).2 ∧
      ∀ m ∈ (prepare settings root d).1, (prepare settings root d).2.isNamed m.node Word.text = true := by
  have hmarkup := removeMarkup_spaced wf h root
  exact (isolating_spaced hQ).prepare ⟨wf, h⟩ settings hmarkup
    (fun n hn => (hmarkup.wellFormed.mem_textElements_iff.mp hn).2) fun _ _ hready n =>
      trimLineBreaks_spaced hready.1 hready.2 n

end Prepare

/-! ### Reading and expanding blocks -/

/-- Reading the blocks. -/
theorem Stages.spaced (hs : Stages settings root d B B' d₂ T d₃) (wf : d.WellFormed) (h : Each (Spacing Q) d.trees)
    (hQ : SuffixClosed Q) : Rearranged Q d d₃ ∧ SpacedWith Q T d₃ := by
  obtain ⟨hprepare, hnames⟩ := prepare_spaced wf h settings hQ root
  have hbounds := Block.bounds_nest (G := fun m => (prepare settings root d).2.name? m.node ≠ none)
    (fun m hm => name?_ne_none_of_isNamed (hnames m hm)) hs.nest_eq
  have hstart : Block.StartStop (prepare settings root d).2 (B.number 0) := fun b hb => hbounds b.2 (by
    rw [← map_snd_number 0 B, toList_map]
    exact List.mem_map_of_mem hb)
  obtain ⟨hplace, hbegins⟩ := Block.placeAll_rearranged hprepare.wellFormed hprepare.each hstart hs.placeAll_eq
  have wf₂ := hplace.grows.wellFormed
  have hextract := Block.extractAll_spaced (.refl wf₂ hplace.each) hbegins
  have hdetached := Block.detached_extractAll wf₂ B'
  rw [hs.extractAll_eq] at hextract hdetached
  exact ⟨(hprepare.rearranged.trans hplace).trans hextract.rearranged, hextract.wellFormed, hextract.each, hdetached⟩

theorem expandBlocks_spaced (wf : w.document.WellFormed) (h : Each (Spacing Q) w.document.trees)
    (hQ : SuffixClosed Q) (hdriver : driver.RewritesPlaceholders)
    (hrun : expandBlocks settings driver root w = .ok () w') : Rearranged Q w.document w'.document := by
  obtain ⟨B, B', d₂, T, d₃, hstages, -, hexpand⟩ := exists_stages_of_expandBlocks hrun
  obtain ⟨hread, hspaced⟩ := hstages.spaced wf h hQ
  have hruns : Runs (expandVia Block.resolveAnchor settings driver root T) ⟨d₃, w.state⟩
      (fun _ w' => Tracks (Spacing Q) d₃ w'.document) fun _ _ => True := by
    rw [expandVia, expandAllVia_resolveAnchor]
    refine (runs_substitute_stays hdriver hQ.nil hspaced.wellFormed hspaced.each root).bind fun _ w₁ h₁ => ?_
    exact (runs_expandAll_spaced hdriver hQ.nil (hspaced.stays h₁) 0).mono (fun _ _ h₂ => h₁.tracks.trans h₂)
      fun _ _ h => h
  rw [Runs, hexpand] at hruns
  exact hread.trans hruns.rearranged

/-! ### Finishing -/

/-- What is done at texts, drawings and cells leaves what texts say. -/
theorem cleaning_spaced (Q : List Char → Prop) :
    Cleaning (fun d => d.WellFormed ∧ Each (Spacing Q) d.trees) (fun name d n => d.isNamed n name = true)
      (Tracks (Spacing Q)) where
  refl h := .refl h.1 h.2
  trans h h' := h.trans h'
  ready_kept _ h := ⟨h.wellFormed, h.each⟩
  spot_kept h h' hn := h'.gains.isNamed_of h.1 hn
  spot_paragraph _ hp := by simpa using List.find?_some hp
  eraseMark {d n} h _ := (Tracks.refl h.1 h.2).eraseAttribute_spaced n _ (by decide)
  detachFromRun h hn := (Tracks.refl h.1 h.2).detachFromRun_spaced (name?_ne_none_of_isNamed hn)
  setNumber {d n} h _ number := (Tracks.refl h.1 h.2).setAttribute_spaced n "id" number fun he => absurd he (by decide)
  ensureParagraph {d n} h hcell := by
    have hd := Tracks.refl h.1 h.2
    have hbears : d.Bears n := bears_of_isNamed hcell (by decide)
    rw [ensureParagraph]
    split
    · exact hd
    · have hmade : Tracks (Spacing Q) d (d.createElement Word.paragraph).2 := hd.create_spaced rfl rfl
      have hmakes := makes_addCopies h.1 (.element ⟨Word.paragraph, []⟩) .nil
      have hr := hmakes.receives h.1 (h.1.mem_ids_of_isNamed hcell)
      exact hmade.append_of_imp hr (fun i hi => hmakes.fresh_le i (by rwa [← hmakes.treeAt_eq]))
        fun node cs htree _ => (hbears.of_gains h.1 hmade.gains).indifferent node cs htree _

section Finish

variable (wf : d.WellFormed) (h : Each (Spacing Q) d.trees)
include wf h

theorem removeInsertionPoints_spaced (root : NodeId) : Tracks (Spacing Q) d (d.removeInsertionPoints root) := by
  refine Tracks.foldl wf h fun d' hd' n _ => ?_
  have hd := Tracks.refl hd'.wellFormed hd'.each
  rw [removeInsertionPoint]
  split
  · exact hd
  · next value hvalue =>
    split
    · exact hd.detach_spaced (name?_ne_none_of_attribute? (by rw [hvalue]; exact Option.some_ne_none _))
    · exact hd.eraseAttribute_spaced n _ (by decide)

theorem finish_spaced (strip : Bool) (root : NodeId) : Tracks (Spacing Q) d (d.finish strip root) := by
  have hpoints := removeInsertionPoints_spaced wf h root
  refine hpoints.trans ((cleaning_spaced Q).finish ⟨hpoints.wellFormed, hpoints.each⟩
    (fun hd n hn => (hd.1.mem_textElements_iff.mp hn).2)
    (fun hd node hnode hname => isNamed_iff.mpr ⟨_, hd.1.label?_of_mem_nodesBelow hnode, hname⟩) ?_)
  intro _ d p hd hp
  rw [detachEmptyParagraph]
  split
  · exact (Tracks.refl hd.1 hd.2).detach_spaced (name?_ne_none_of_isNamed hp)
  · exact .refl hd.1 hd.2

end Finish

/-! ### Processing -/

/-- What is known of the texts whose blanks do not count is known of them after processing, if it is known of what is
left of them behind a directive. -/
theorem processAt_spaced (wf : w.document.WellFormed) (h : Each (Spacing Q) w.document.trees)
    (hQ : SuffixClosed Q) (hdriver : driver.RewritesPlaceholders)
    (hrun : processAt settings driver root w = .ok () w') :
    w'.document.WellFormed ∧ Each (Spacing Q) w'.document.trees := by
  obtain ⟨w₁, hexpand, hfinish⟩ := exists_of_processAt hrun
  have hexpanded := expandBlocks_spaced wf h hQ hdriver hexpand
  have hfinished := finish_spaced hexpanded.grows.wellFormed hexpanded.each settings.stripEmptyParagraphs root
  rw [← hfinish] at hfinished
  exact ⟨hfinished.wellFormed, hfinished.each⟩

/-- A text whose blanks do not count says nothing after processing, or it says what is left behind a directive of such
a text of the template. -/
theorem processAt_bareTexts (wf : w.document.WellFormed) (h : PlainTexts (labels w.document.trees))
    (hdriver : driver.RewritesPlaceholders) (hrun : processAt settings driver root w = .ok () w') :
    ∀ s ∈ bareTexts (labels w'.document.trees),
      s = "" ∨ ∃ t ∈ bareTexts (labels w.document.trees), s.toList <:+ t.toList := by
  have hQ : SuffixClosed fun s => s = [] ∨ ∃ t ∈ bareTexts (labels w.document.trees), s <:+ t.toList :=
    { nil := .inl rfl
      of_suffix := by
        rintro s t hst (rfl | ⟨u, hu, htu⟩)
        · exact .inl (List.suffix_nil.mp hst)
        · exact .inr ⟨u, hu, hst.trans htu⟩ }
  obtain ⟨-, he⟩ := processAt_spaced wf
    (each_spacing_iff.mpr (each_spaced_iff.mpr ⟨h, fun t ht => .inr ⟨t, ht, List.suffix_rfl⟩⟩)) hQ hdriver hrun
  intro s hs
  exact ((each_spaced_iff.mp (each_spacing_iff.mp he)).2 s hs).imp String.toList_eq_nil_iff.mp id

/-- If all blanks count in the template, all blanks at the ends of texts count after processing. Only those at the
beginning can be lost. -/
theorem processAt_lastBlank (wf : w.document.WellFormed) (h : PlainTexts (labels w.document.trees))
    (hsafe : SpaceSafe (labels w.document.trees)) (hdriver : driver.RewritesPlaceholders)
    (hrun : processAt settings driver root w = .ok () w') :
    ∀ s ∈ bareTexts (labels w'.document.trees), s.toList.getLast?.any Text.isBlank = false := by
  intro s hs
  obtain rfl | ⟨t, ht, hst⟩ := processAt_bareTexts wf h hdriver hrun s hs
  · rfl
  · obtain ⟨front, hfront⟩ := hst
    have hblank := spaceSafe_iff.mp hsafe t ht
    rw [hasOuterBlank, Bool.or_eq_false_iff, ← hfront, List.getLast?_append] at hblank
    cases hlast : s.toList.getLast? with
    | none => rfl
    | some c => simpa [hlast] using hblank.2

theorem processAt_lastBlank_splitPlaceholder :
    let s := Scopes.ofModel (.object [("a", .string "x")])
    ∃ w', processAt {} (ModelBinding.driver {}) splitPlaceholder.root ⟨splitPlaceholder, s⟩ = .ok () w' ∧
      ∀ s ∈ bareTexts (labels w'.document.trees), s.toList.getLast?.any Text.isBlank = false := by
  intro s
  obtain ⟨_, w', hrun⟩ := exists_of_errorOf?_eq_none (r := processAt {} (ModelBinding.driver {})
    splitPlaceholder.root ⟨splitPlaceholder, s⟩) (by decide +kernel)
  exact ⟨w', hrun, processAt_lastBlank (Document.wellFormed_ofTree _ _) (by decide +kernel) (by decide +kernel)
    (ModelBinding.rewritesPlaceholders {}) hrun⟩

end Processing

end WordTemplate
