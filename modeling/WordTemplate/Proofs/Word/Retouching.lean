import WordTemplate.Proofs.Preparation
import WordTemplate.Proofs.Binding.Substitution
import WordTemplate.Proofs.Word.Passes
import WordTemplate.Proofs.Word.Texts
import WordTemplate.Proofs.Word.Trace
import WordTemplate.Proofs.Xml.Retouching

/-!
# Writing texts and taking them out leaves tables as they are

Texts are written into text elements, new texts and breaks come beside others, and what is taken out are
texts, runs and marks. So the preparation of a document and the substitution of values leave tables as they
are.

* `Retouches.writeValue`, `Retouches.detachFromRun`: writing and taking out.
* `isolating_retouches`, `prepare_retouches`: the preparation.
-/

namespace WordTemplate

open Xml Forest Xml.Document

variable {d₀ d d' : Document} {root n m : NodeId} {R : NodeId → Prop}

/-! ## Writing texts -/

namespace Xml.Document

theorem offGrid_of_text (h : d.isNamed n Word.text = true) : d.OffGrid n :=
  offGrid_of_isNamed h (by decide) (by decide)

theorem isNamed_of_label? {l : Label} {name : String} (h : d.label? n = some l) :
    d.isNamed n name = l.isNamed name := by
  rw [isNamed, name?, h]
  rfl

namespace Retouches

variable (h : d₀.Retouches R d)
include h

theorem not_mem_of_makes {f : Forest Node} (hm : d.Makes d' m f) : m ∉ d₀.ids := by
  intro hmem
  refine hm.not_mem h.grows.wellFormed (h.grows.mem_ids m hmem) ?_
  rw [← hm.treeAt_eq]
  exact hm.extends_eq.grows.wellFormed.mem_treeAt_self hm.mem_ids

/-- A new tree is put beside a node. -/
theorem insertNew {d₁ : Document} {f : Forest Node} (h₁ : d₀.Retouches R d₁) (hm : d.Makes d₁ m f)
    (hn : n ∈ d.ids) (hgrid : d₁.OffGrid m) {j : Forest Node → Forest Node → Forest Node}
    (hput : ∀ f g, j f g = f ++ g ∨ j f g = g ++ f) : d₀.Retouches R (d₁.insertBeside j n m) :=
  h₁.insertBeside (hm.receives h.grows.wellFormed hn) hput (h.not_mem_of_makes hm) hgrid

theorem create {l : Label} (hl : l.attribute? Word.insertionAttribute = none) :
    d₀.Retouches R (d.create l).2 :=
  h.addCopies fun _ hmem => by
    obtain rfl : _ = l := by simpa [tree, toList] using hmem
    exact hl

theorem setText (hR : d₀.TextsLoose R) (hn : d.isNamed n Word.text = true) (content : String) :
    d₀.Retouches R (d.setText n content) := by
  have wf := h.grows.wellFormed
  obtain ⟨l, hl, hname⟩ := isNamed_iff.mp hn
  have hempty := h.takeChildren hR hn
  have hsame : (d.takeChildren n).2.isNamed n Word.text = true :=
    ((Retouches.takeChildren (.refl wf) wf.textsLoose hn).isNamed_eq (wf.mem_ids_of_label? hl) _).trans hn
  rw [Document.setText, hl]
  cases l with
  | text content => simp [Label.isNamed, Label.name?] at hname
  | element tag =>
    dsimp only
    split
    · exact hempty
    · have wf₁ := hempty.grows.wellFormed
      have hmakes := makes_addCopies wf₁ (.text content) .nil
      have hlabel : ((d.takeChildren n).2.createText content).2.label?
          ((d.takeChildren n).2.createText content).1 = some (.text content) := by
        rw [label?, createText, Document.create, hmakes.treeAt_eq]
        rfl
      have hmem := wf₁.mem_ids_of_isNamed hsame
      have hthere : ((d.takeChildren n).2.createText content).2.isNamed n Word.text = true :=
        ((Retouches.create (R := fun _ => True) (.refl wf₁) (l := .text content) rfl).isNamed_eq hmem _).trans hsame
      exact (hempty.create (l := .text content) rfl).append (hmakes.receives wf₁ hmem)
        (hempty.not_mem_of_makes hmakes) ⟨isNamed_of_label? hlabel, isNamed_of_label? hlabel⟩
        (isNamed_eq_false_of_ne hthere (by decide))

theorem writeText (hR : d₀.TextsLoose R) (hn : d.isNamed n Word.text = true) (content : String) :
    d₀.Retouches R (d.writeText n content) := by
  have hspace := fun {R : NodeId → Prop} {d₁ : Document} (h₁ : d₁.Retouches R d) =>
    h₁.setAttribute (offGrid_of_text hn) Word.spaceAttribute (by decide) "preserve"
  have hsame := (hspace (R := fun _ => True) (.refl h.grows.wellFormed)).isNamed_eq
    (h.grows.wellFormed.mem_ids_of_isNamed hn)
  exact (hspace h).setText hR ((hsame Word.text).trans hn) content

theorem createTextElement (hR : d₀.TextsLoose R) (content : String) :
    d₀.Retouches R (d.createTextElement content).2 ∧
      (d.createTextElement content).2.isNamed (d.createTextElement content).1 Word.text = true := by
  have hnamed := isNamed_freshId h.grows.wellFormed Word.text
  have hcreate := h.create (l := .element ⟨Word.text, []⟩) rfl
  have wf₁ := hcreate.grows.wellFormed
  have hwrite := Retouches.writeText (.refl wf₁) wf₁.textsLoose hnamed content
  exact ⟨hcreate.writeText hR hnamed content, (hwrite.isNamed_eq (wf₁.mem_ids_of_isNamed hnamed) _).trans hnamed⟩

theorem insertAfterNew {d₁ : Document} {f : Forest Node} (h₁ : d₀.Retouches R d₁) (hm : d.Makes d₁ m f)
    (hn : n ∈ d.ids) (hgrid : d₁.OffGrid m) :
    d₀.Retouches R (d₁.insertAfter n m) ∧ m ∈ (d₁.insertAfter n m).ids := by
  have hput : ∀ f g : Forest Node, g ++ f = f ++ g ∨ g ++ f = g ++ f := fun _ _ => .inr rfl
  have hr := hm.receives h.grows.wellFormed hn
  exact ⟨h.insertNew h₁ hm hn hgrid hput,
    (hm.extends_eq.grows.wellFormed.grows_beside hr hput).mem_ids m hm.mem_ids⟩

theorem insertLine (hR : d₀.TextsLoose R) (hn : n ∈ d.ids) (line : String) :
    d₀.Retouches R (d.insertLine n line).2 ∧ (d.insertLine n line).1 ∈ (d.insertLine n line).2.ids := by
  obtain ⟨h₁, hbr⟩ := h.insertAfterNew (h.create (l := .element ⟨Word.lineBreak, []⟩) rfl)
    (makes_addCopies h.grows.wellFormed (.element ⟨Word.lineBreak, []⟩) .nil) hn
    (offGrid_of_isNamed (isNamed_freshId h.grows.wellFormed Word.lineBreak) (by decide) (by decide))
  change d₀.Retouches R ((d.addCopies (tree (.element ⟨Word.lineBreak, []⟩) .nil)).insertAfter n d.freshId) at h₁
  change d.freshId ∈ ((d.addCopies (tree (.element ⟨Word.lineBreak, []⟩) .nil)).insertAfter n d.freshId).ids
    at hbr
  generalize hd₁ : (d.addCopies (tree (.element ⟨Word.lineBreak, []⟩) .nil)).insertAfter n d.freshId = d₁
    at h₁ hbr
  obtain ⟨f, -, hmakes⟩ := createTextElement_spec h₁.grows.wellFormed line
  obtain ⟨h₂, htext⟩ := h₁.createTextElement hR line
  rw [insertLine_eq line hd₁]
  exact h₁.insertAfterNew h₂ hmakes hbr (offGrid_of_text htext)

theorem insertLines (hR : d₀.TextsLoose R) (hn : n ∈ d.ids) (lines : List String) :
    d₀.Retouches R (lines.foldl (fun (cursor, d) line => d.insertLine cursor line) (n, d)).2 := by
  induction lines generalizing d n with
  | nil => exact h
  | cons line lines ih =>
    have hline := h.insertLine hR hn line
    rw [foldl_insertLine_cons]
    generalize d.insertLine n line = result at hline ⊢
    obtain ⟨cursor, d'⟩ := result
    exact ih hline.1 hline.2

/-- Writing a value into a text. -/
theorem writeValue (hR : d₀.TextsLoose R) (hn : d.isNamed n Word.text = true) (value : String) :
    d₀.Retouches R (d.writeValue n value) := by
  have hmem := h.grows.wellFormed.mem_ids_of_isNamed hn
  have herase := h.eraseAttribute (offGrid_of_text hn) Word.markAttribute (by decide)
  have herased := Retouches.eraseAttribute (R := fun _ => True) (.refl h.grows.wellFormed) (offGrid_of_text hn)
    Word.markAttribute (by decide)
  have hnamed := (herased.isNamed_eq hmem Word.text).trans hn
  have hwrite := herase.writeText hR hnamed
  unfold Document.writeValue
  dsimp only
  split
  · exact hwrite ""
  · next first others _ =>
    have hwritten := herased.writeText h.grows.wellFormed.textsLoose hnamed first
    exact (hwrite first).insertLines hR (hwritten.grows.mem_ids n hmem) others

/-! ## Taking texts out -/

theorem detachFromRun (hn : d.OffGrid n) (hR : R n)
    (hrun : ∀ run, (d.detach n).isNamed run Word.run = true → (d.detach n).hasContent run = false → R run) :
    d₀.Retouches R (d.detachFromRun n) := by
  unfold Document.detachFromRun
  dsimp only
  split
  · next run _ =>
    split
    · next hempty =>
      rw [Bool.and_eq_true, Bool.not_eq_true'] at hempty
      exact (h.detach hn hR).detach (offGrid_of_isNamed hempty.1 (by decide) (by decide))
        (hrun run hempty.1 hempty.2)
    · exact h.detach hn hR
  · exact h.detach hn hR

omit h in
theorem foldl {α : Type} {f : Document → α → Document} {l : List α} (wf : d.WellFormed)
    (hf : ∀ d', d.Retouches R d' → ∀ a ∈ l, d'.Retouches R (f d' a)) : d.Retouches R (l.foldl f d) :=
  List.foldlRecOn l f (Retouches.refl wf) fun d' hd' a ha => hd'.trans (hf d' hd' a ha)

end Retouches

end Xml.Document

/-- Substituting values. -/
theorem Rewrites.retouches {ns : List NodeId} (hr : Rewrites root d ns d') (hR : d.TextsLoose R) :
    d.Retouches R d' := by
  have wf := hR.wellFormed
  induction hr with
  | refl => exact .refl wf
  | write value _ hn ih =>
    obtain ⟨hmem, htext⟩ := wf.mem_textElements_iff.mp (List.mem_of_mem_filter hn)
    exact ih.writeValue hR ((ih.isNamed_eq (wf.mem_ids_of_mem_treeAt hmem) _).trans htext) value

/-! ## Isolating directives -/

/-- Whether `n` is a text, and where it is there was a text already. -/
structure BesideText (d₀ d : Document) (n : NodeId) : Prop where
  named : d.isNamed n Word.text = true
  parent : ∀ p, d.parent? n = some p → ∃ t ∈ d₀.children p, d₀.isNamed t Word.text = true

namespace BesideText

theorem mem_ids (h : BesideText d₀ d n) (wf : d.WellFormed) : n ∈ d.ids :=
  wf.mem_ids_of_isNamed h.named

theorem retouches (h : BesideText d₀ d n) (wf : d.WellFormed) (hd : d.Retouches R d') : BesideText d₀ d' n where
  named := (hd.isNamed_eq (h.mem_ids wf) _).trans h.named
  parent p hp := by
    rcases hd.parent?_eq n (h.mem_ids wf) with he | ⟨-, he⟩
    · exact h.parent p (he ▸ hp)
    · rw [he] at hp
      cases hp

end BesideText

theorem besideText_insertBeside {d₁ : Document} {f : Forest Node} (h : BesideText d₀ d n) (wf : d.WellFormed)
    (h₁ : d.Retouches R d₁) (hm : d.Makes d₁ m f) (htext : d₁.isNamed m Word.text = true)
    {j : Forest Node → Forest Node → Forest Node} (hput : ∀ f g, j f g = f ++ g ∨ j f g = g ++ f) :
    BesideText d₀ (d₁.insertBeside j n m) m := by
  have wf₁ := h₁.grows.wellFormed
  have hr := hm.receives wf (h.mem_ids wf)
  cases hp : d₁.parent? n with
  | none =>
    rw [Document.insertBeside, hp]
    exact ⟨htext, fun p hp' => by rw [hm.parent?_eq] at hp'; cases hp'⟩
  | some q =>
    have hmoves := wf₁.moves_insertBeside hr (by rw [hp]; rfl) hput
    refine ⟨by rw [isNamed, name?, hmoves.label?_eq]; exact htext, fun p hp' => ?_⟩
    rw [hmoves.grows.wellFormed.parent?_eq_some_iff, wf₁.children_insertBeside hr (by rw [hp]; rfl) hput,
      mem_flatMap_iff] at hp'
    rcases hp' with ⟨hmem, -⟩ | ⟨hmem, -⟩
    · rw [← wf₁.parent?_eq_some_iff, hm.parent?_eq] at hmem
      cases hmem
    · exact (h.retouches wf h₁).parent p (wf₁.parent?_eq_some_iff.mpr hmem)

theorem dropFront_retouches (wf : d.WellFormed) (hn : d.isNamed n Word.text = true) (count : Nat) :
    d.Retouches (fun _ => True) (FlatText.dropFront d n count) := by
  unfold FlatText.dropFront
  dsimp only
  split
  · exact Retouches.detachFromRun (.refl wf) (offGrid_of_text hn) trivial fun _ _ _ => trivial
  · exact Retouches.setText (.refl wf) wf.textsLoose hn _

/-- Isolating directives changes what is at texts. -/
theorem isolating_retouches (d₀ : Document) :
    Isolating WellFormed (BesideText d₀) (Retouches fun _ => True) where
  refl wf := .refl wf
  trans h h' := h.trans h'
  ready_kept _ h := h.grows.wellFormed
  spot_kept wf h hn := hn.retouches wf h
  writeText wf hn content := Retouches.writeText (.refl wf) wf.textsLoose hn.named content
  setMark wf hn name := Retouches.setAttribute (.refl wf) (offGrid_of_text hn.named) Word.markAttribute (by decide) name
  insertText {d n put} wf hn hput content := by
    obtain ⟨f, -, hmakes⟩ := createTextElement_spec wf content
    obtain ⟨hmade, htext⟩ := Retouches.createTextElement (.refl wf) wf.textsLoose content
    exact ⟨Retouches.insertNew (.refl wf) hmade hmakes (hn.mem_ids wf) (offGrid_of_text htext) hput,
      besideText_insertBeside hn wf hmade hmakes htext hput⟩
  dropFront wf hn count := dropFront_retouches wf hn.named count

/-! ## Preparing a document -/

theorem removeMarkup_retouches (wf : d.WellFormed) (root : NodeId) :
    d.Retouches (fun _ => True) (d.removeMarkup root) := by
  refine Retouches.foldl wf fun d' hd' m _ => ?_
  have hrefl := Retouches.refl (R := fun _ => True) hd'.grows.wellFormed
  rw [removeMarkupAt]
  split
  · next hname => exact hrefl.detach (offGrid_of_isNamed hname (by decide) (by decide)) trivial
  · split
    · next hname =>
      rw [Bool.or_eq_true] at hname
      rcases hname with hname | hname <;>
        exact hrefl.detachFromRun (offGrid_of_isNamed hname (by decide) (by decide)) trivial fun _ _ _ => trivial
    · exact hrefl

theorem trimLineBreaks_retouches (wf : d.WellFormed) (n : NodeId) :
    d.Retouches (fun _ => True) (d.trimLineBreaks n) := by
  unfold Document.trimLineBreaks
  split
  · exact .refl wf
  · dsimp only
    split
    · exact .refl wf
    · refine Retouches.foldl wf fun d' hd' m hm => ?_
      have hbreak : d.isNamed m Word.lineBreak = true := by
        rcases List.mem_append.mp hm with hm | hm <;> exact (List.mem_filter.mp hm).2
      exact Retouches.detachFromRun (.refl hd'.grows.wellFormed)
        (offGrid_of_isNamed ((hd'.isNamed_eq (wf.mem_ids_of_isNamed hbreak) _).trans hbreak) (by decide)
          (by decide)) trivial fun _ _ _ => trivial

/-- The preparation leaves tables as they are, and the directives are where there were texts. -/
theorem prepare_retouches (settings : Settings) (root : NodeId) (wf : d.WellFormed) :
    d.Retouches (fun _ => True) (prepare settings root d).2 ∧
      ∀ m ∈ (prepare settings root d).1, BesideText d (prepare settings root d).2 m.node := by
  have hclean := removeMarkup_retouches wf root
  have wf₁ := hclean.grows.wellFormed
  have hthins : Thins [] d (d.removeMarkup root) root := thins_removeMarkup wf
  refine (isolating_retouches d).prepare wf settings hclean (fun n hn => ?_) fun _ _ wf n =>
    trimLineBreaks_retouches wf n
  have htext := (wf₁.mem_textElements_iff.mp hn).2
  have htext' : d.isNamed n Word.text = true := by
    rw [isNamed, name?, ← hthins.label?_eq]
    exact htext
  refine ⟨htext, fun p hp => ⟨n, ?_, htext'⟩⟩
  rcases hclean.parent?_eq n (wf.mem_ids_of_isNamed htext') with he | ⟨-, he⟩
  · exact wf.parent?_eq_some_iff.mp (he ▸ hp)
  · have hnone := he.symm.trans hp
    cases hnone

end WordTemplate
