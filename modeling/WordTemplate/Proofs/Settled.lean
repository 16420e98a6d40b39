import WordTemplate.Proofs.Preparation
import WordTemplate.Proofs.Word.Drawings

/-!
# Documents with nothing left to do

Every step of finishing leaves a scope in which it would do nothing again, and no later step undoes that. So a
scope that was finished is settled, and finishing a settled scope changes nothing.

* `finish_settled`: a finished scope is settled, if no markup is in it.
* `Settled.finish_eq`, `removeMarkup_eq`: nothing is done to a settled scope.
-/

namespace WordTemplate

open Xml Forest Xml.Document

/-- Steps of which none does anything. -/
theorem foldl_eq_self {α β : Type} {f : α → β → α} {a : α} {l : List β} (h : ∀ b ∈ l, f a b = a) :
    l.foldl f a = a := by
  induction l with
  | nil => rfl
  | cons b l ih =>
    rw [List.forall_mem_cons] at h
    rw [List.foldl_cons, h.1, ih h.2]

namespace Xml.Label

variable {l : Label} {key value : String}

/-- Whether this is a mark that can stand between the parts of a directive. -/
def isMarkup (l : Label) : Bool :=
  l.isNamed Word.proofError || l.isNamed Word.bookmarkStart || l.isNamed Word.bookmarkEnd

theorem isMarkup_congr {l' : Label} (h : l'.name? = l.name?) : l'.isMarkup = l.isMarkup := by
  simp [isMarkup, isNamed, h]

/-- Whether no attribute is there twice. -/
def Unrepeated : Label → Prop
  | element tag => (tag.attributes.map Prod.fst).Nodup
  | text _ => True

instance (l : Label) : Decidable l.Unrepeated :=
  match l with
  | element tag => inferInstanceAs (Decidable (tag.attributes.map Prod.fst).Nodup)
  | text _ => inferInstanceAs (Decidable True)

theorem unrepeated_iff : l.Unrepeated ↔ ∀ key, l.occurrences key ≤ 1 := by
  cases l with
  | text content => simp [Unrepeated, occurrences]
  | element tag =>
    simp only [Unrepeated, occurrences, List.nodup_iff_count_le_one, List.count, List.countP_map]
    rfl

theorem Unrepeated.setAttribute (h : l.Unrepeated) : (l.setAttribute key value).Unrepeated := by
  rw [unrepeated_iff] at h ⊢
  intro other
  by_cases he : other = key
  · subst he
    exact occurrences_setAttribute_le (h other)
  · rw [occurrences_setAttribute_ne he]
    exact h other

theorem Unrepeated.eraseAttribute (h : l.Unrepeated) : (l.eraseAttribute key).Unrepeated := by
  rw [unrepeated_iff] at h ⊢
  intro other
  by_cases he : other = key
  · subst he
    rw [occurrences_eraseAttribute_self]
    exact Nat.le_trans (Nat.sub_le ..) (h other)
  · rw [occurrences_eraseAttribute_ne he]
    exact h other

theorem Unrepeated.attribute?_eraseAttribute_self (h : l.Unrepeated) :
    (l.eraseAttribute key).attribute? key = none := by
  rw [attribute?_eq_none_iff, occurrences_eraseAttribute_self]
  exact Nat.sub_eq_zero_of_le (unrepeated_iff.mp h key)

end Xml.Label

variable {d d₀ d' : Document} {root n : NodeId} {k : String} {strip : Bool}

/-! ## Markup -/

/-- No markup is left below the root. -/
theorem removeMarkup_clears (wf : d.WellFormed) (hroot : root ∈ d.ids) :
    (∀ n ∈ ids ((d.removeMarkup root).treeAt root), n ∈ ids (d.treeAt root)) ∧
      ∀ n ∈ (d.removeMarkup root).descendants root, ∀ l, (d.removeMarkup root).label? n = some l →
        l.isMarkup = false := by
  obtain ⟨hlessens, -, hclear⟩ := sweep (I := fun _ => True) (k := Word.markAttribute)
    (C := fun n l => n ≠ root → l.isMarkup = false) (f := Document.removeMarkupAt) wf trivial hroot
    (fun d n wf _ hroot => by
      have hself : n = root → ∀ l, d.label? n = some l → n ≠ root → l.isMarkup = false :=
        fun he _ _ hne => absurd he hne
      rw [Document.removeMarkupAt]
      split
      · exact clears_detach wf trivial hself
      · next hproof =>
        split
        · exact clears_detachFromRun wf hroot trivial (fun _ _ _ _ => trivial) hself
        · next hbookmark =>
          refine clears_self wf trivial fun l hl _ => ?_
          simp only [Document.isNamed, Document.name?, hl, Option.bind_some] at hproof hbookmark
          simp only [Label.isMarkup, Label.isNamed]
          simpa [and_assoc] using And.intro hproof hbookmark)
    (d.descendants root)
  refine ⟨fun n hn => hlessens.mem_treeAt hroot hn, fun n hn l hl => ?_⟩
  obtain ⟨hmem, hne⟩ := hlessens.wellFormed.mem_descendants_iff.mp hn
  exact hclear n (hlessens.descendants_subset wf hroot hn) hmem l hl hne

/-- Where there is no markup, none is removed. -/
theorem removeMarkup_eq (wf : d.WellFormed)
    (h : ∀ n ∈ d.descendants root, ∀ l, d.label? n = some l → l.isMarkup = false) :
    d.removeMarkup root = d := by
  refine foldl_eq_self fun n hn => ?_
  obtain ⟨node, hnode, rfl⟩ := List.mem_map.mp hn
  have hl := wf.label?_of_mem_nodesBelow hnode
  have hnot := h _ hn _ hl
  simp only [Label.isMarkup, Label.isNamed, Bool.or_eq_false_iff] at hnot
  simp [Document.removeMarkupAt, Document.isNamed, Document.name?, hl, hnot]

/-! ## Traces -/

/-- Whether no attribute is twice at an element at or below the root. -/
structure UnrepeatedAt (root : NodeId) (d : Document) : Prop where
  root_mem : root ∈ d.ids
  unrepeated : ∀ n ∈ ids (d.treeAt root), ∀ l, d.label? n = some l → l.Unrepeated

theorem UnrepeatedAt.detach (h : UnrepeatedAt root d) (wf : d.WellFormed) (n : NodeId) :
    UnrepeatedAt root (d.detach n) where
  root_mem := (wf.grows_detach n).mem_ids _ h.root_mem
  unrepeated m hm l hl := by
    have hlessens : Lessens (fun _ => True) Word.markAttribute d (d.detach n) := .detach wf trivial
    rw [label?_detach wf] at hl
    exact h.unrepeated m (hlessens.mem_treeAt h.root_mem hm) l hl

theorem UnrepeatedAt.eraseAttribute (h : UnrepeatedAt root d) (wf : d.WellFormed) (n : NodeId) :
    UnrepeatedAt root (d.eraseAttribute n k) where
  root_mem := (wf.grows_relabel n _).mem_ids _ h.root_mem
  unrepeated m hm l hl := by
    have hlessens : Lessens (fun _ => True) k d (d.eraseAttribute n k) := .eraseAttribute wf trivial
    replace hm := hlessens.mem_treeAt h.root_mem hm
    by_cases he : m = n
    · subst he
      rw [Document.eraseAttribute, wf.label?_relabel_self] at hl
      obtain ⟨l₀, hl₀, rfl⟩ := Option.map_eq_some_iff.mp hl
      exact (h.unrepeated m hm l₀ hl₀).eraseAttribute
    · rw [Document.eraseAttribute, wf.label?_relabel_ne he] at hl
      exact h.unrepeated m hm l hl

/-- Whether a node has no insertion point and no mark that means something. Both may stay at the root, but not
the mark of a placeholder. -/
structure Cleared (root n : NodeId) (l : Label) : Prop where
  point : n ≠ root → l.attribute? Word.insertionAttribute = none
  mark : l.isNamed Word.text = true → l.mark? = none ∨ n = root ∧ l.mark? ≠ some .placeholder

/-- The mark of a text is taken away, or the text with it, unless it is the root. -/
theorem clears_removeDirectiveText (wf : d.WellFormed) (h : UnrepeatedAt root d) :
    Clears (UnrepeatedAt root) (fun n l => l.mark? = none ∨ n = root ∧ l.mark? ≠ some .placeholder)
      Word.markAttribute root d (Document.removeDirectiveText ([], d) n).2 n := by
  have hmark : ∀ l, d.label? n = some l → d.mark? n = l.mark? := fun l hl => by
    rw [Document.mark?, hl, Option.bind_some]
  unfold Document.removeDirectiveText
  dsimp only
  split
  · next hnone => exact clears_self wf h fun l hl => .inl ((hmark l hl).symm.trans hnone)
  · refine clears_eraseAttribute wf h.root_mem (h.eraseAttribute wf n) fun hn l hl => .inl ?_
    rw [Label.mark?, (h.unrepeated n hn l hl).attribute?_eraseAttribute_self]
    rfl
  · next kind hne hkind =>
    refine clears_detachFromRun wf h.root_mem h (fun d n wf h => h.detach wf n) fun he l hl => .inr ⟨he, ?_⟩
    rw [← hmark l hl, hkind]
    exact fun heq => hne (Option.some.inj heq)

/-- After insertion points and marks have been dealt with all nodes are cleared. -/
theorem clear_cleared (strip : Bool) (wf : d.WellFormed) (h : UnrepeatedAt root d)
    (hd' : Document.removeDirectiveTexts strip (d.removeInsertionPoints root) root = d') :
    d'.WellFormed ∧ root ∈ d'.ids ∧
      ∀ n ∈ ids (d'.treeAt root), ∀ l, d'.label? n = some l → Cleared root n l := by
  obtain ⟨h₁, hpoints⟩ := removeInsertionPoints_clears wf h h.root_mem fun d n wf h hroot =>
    clears_removeInsertionPoint wf hroot h (h.detach wf n) (fun _ => h.eraseAttribute wf n)
      fun hn l hl => (h.unrepeated n hn l hl).attribute?_eraseAttribute_self
  have hroot₁ := h₁.kept.root_mem
  obtain ⟨h₂, hmarks⟩ := removeDirectiveTexts_clears strip h₁.wellFormed h₁.kept hroot₁
    (fun d n wf h => h.detach wf n) fun d n wf h _ => clears_removeDirectiveText wf h
  rw [hd'] at h₂ hmarks
  refine ⟨h₂.wellFormed, h₂.kept.root_mem, fun n hn l hl => ⟨fun hne => ?_, fun htext => ?_⟩⟩
  · have hbelow := h₂.wellFormed.mem_descendants_iff.mpr ⟨hn, hne⟩
    obtain ⟨l₁, hl₁, -, hattribute⟩ := h₂.same n l hl
    rw [hattribute _ (by decide)]
    exact hpoints n (h₂.descendants_subset h₁.wellFormed hroot₁ hbelow) l₁ hl₁
  · exact hmarks n (h₂.wellFormed.mem_textElements_iff.mpr ⟨hn, isNamed_iff.mpr ⟨l, hl, htext⟩⟩) l hl

/-! ## Settled scopes -/

/-- Whether there is nothing left to do at and below the root. -/
structure Settled (root : NodeId) (d : Document) : Prop where
  cleared : ∀ n ∈ ids (d.treeAt root), ∀ l, d.label? n = some l → Cleared root n l
  distinct : d.DistinctDrawings root
  supplied : ∀ n ∈ d.descendants root, d.isNamed n Word.cell = true → d.paragraphsIn n ≠ []
  markup : ∀ n ∈ d.descendants root, ∀ l, d.label? n = some l → l.isMarkup = false
  parent?_eq : d.isNamed root Word.text = true → d.parent? root = none

/-- The label of a node after cells have got paragraphs. -/
theorem Xml.Document.Supplied.label?_cases (h : Document.Supplied root d₀ d) (wf₀ : d₀.WellFormed)
    (hroot : root ∈ d₀.ids) (hn : n ∈ Xml.ids (d.treeAt root)) :
    n ∈ Xml.ids (d₀.treeAt root) ∧ d.label? n = d₀.label? n ∨
      d.label? n = some (.element ⟨Word.paragraph, []⟩) := by
  rcases h.gains.mem_or_fresh root hroot n hn with hold | hnew
  · exact .inl ⟨hold, h.label?_eq n (wf₀.mem_ids_of_mem_treeAt hold)⟩
  · exact .inr (h.made n hn hnew).1

theorem Xml.Document.Supplied.label?_cases_below (h : Document.Supplied root d₀ d) (wf₀ : d₀.WellFormed)
    (hroot : root ∈ d₀.ids) (hn : n ∈ d.descendants root) :
    n ∈ d₀.descendants root ∧ d.label? n = d₀.label? n ∨ d.label? n = some (.element ⟨Word.paragraph, []⟩) := by
  obtain ⟨hmem, hne⟩ := h.gains.grows.wellFormed.mem_descendants_iff.mp hn
  exact (h.label?_cases wf₀ hroot hmem).imp_left fun ⟨hmem, hl⟩ => ⟨wf₀.mem_descendants_iff.mpr ⟨hmem, hne⟩, hl⟩

/-- Paragraphs for cells are no drawings. -/
theorem Xml.Document.Supplied.distinctDrawings (h : Document.Supplied root d₀ d) (wf₀ : d₀.WellFormed)
    (hroot : root ∈ d₀.ids) (hdistinct : d₀.DistinctDrawings root) : d.DistinctDrawings root := by
  have hnumber : ∀ n ∈ d.descendants root, ∀ number, d.drawingNumber? n = some number →
      n ∈ d₀.descendants root ∧ d₀.drawingNumber? n = some number := fun n hn number hnum => by
    rcases h.label?_cases_below wf₀ hroot hn with ⟨hmem, hl⟩ | hl
    · exact ⟨hmem, by rwa [drawingNumber?, ← hl]⟩
    · rw [drawingNumber?, hl] at hnum
      cases hnum
  intro n hn m hm number hnum hnum'
  obtain ⟨hn₀, hnum₀⟩ := hnumber n hn number hnum
  obtain ⟨hm₀, hnum₀'⟩ := hnumber m hm number hnum'
  exact hdistinct n hn₀ m hm₀ number hnum₀ hnum₀'

/-- A scope without markup is settled after it was finished. -/
theorem finish_settled (wf : d.WellFormed) (h : UnrepeatedAt root d)
    (hmarkup : ∀ n ∈ (d.finish strip root).descendants root, ∀ l,
      (d.finish strip root).label? n = some l → l.isMarkup = false)
    (hparent : (d.finish strip root).isNamed root Word.text = true →
      (d.finish strip root).parent? root = none) : Settled root (d.finish strip root) := by
  obtain ⟨d₂, hd₂⟩ : ∃ d₂, Document.removeDirectiveTexts strip (d.removeInsertionPoints root) root = d₂ :=
    ⟨_, rfl⟩
  obtain ⟨wf₂, hroot₂, hcleared⟩ := clear_cleared strip wf h hd₂
  have hfinish : d.finish strip root = (d₂.renumberDrawings root).ensureCellParagraphs root :=
    congrArg (fun d => (Document.renumberDrawings d root).ensureCellParagraphs root) hd₂
  rw [hfinish] at hmarkup hparent ⊢
  have h₃ : Lessens (fun _ => True) "id" d₂ (d₂.renumberDrawings root) :=
    renumber_lessens wf₂ trivial (fun _ _ _ _ _ => trivial) ..
  have hdistinct := renumberDrawings_distinct wf₂ hroot₂
  generalize d₂.renumberDrawings root = d₃ at h₃ hdistinct hmarkup hparent ⊢
  have wf₃ := h₃.wellFormed
  have hroot₃ := h₃.gains.grows.mem_ids _ hroot₂
  obtain ⟨hsupplied, hcells⟩ := ensureCellParagraphs_supplies wf₃ hroot₃
  generalize d₃.ensureCellParagraphs root = d₄ at hsupplied hcells hmarkup hparent ⊢
  refine ⟨fun n hn l hl => ?_, hsupplied.distinctDrawings wf₃ hroot₃ hdistinct, fun n hn hname => ?_, hmarkup,
    hparent⟩
  · rcases hsupplied.label?_cases wf₃ hroot₃ hn with ⟨hmem, heq⟩ | hnew
    · obtain ⟨l₂, hl₂, hname, hattribute⟩ := h₃.same n l (heq.symm.trans hl)
      obtain ⟨hpoint, hmark⟩ := hcleared n (h₃.mem_treeAt hroot₂ hmem) l₂ hl₂
      refine ⟨fun hne => (hattribute _ (by decide)).trans (hpoint hne), fun htext => ?_⟩
      rw [Label.mark?, hattribute _ (by decide)]
      exact hmark (by rwa [Label.isNamed, ← hname])
    · obtain rfl := Option.some.inj (hl.symm.trans hnew)
      exact ⟨fun _ => rfl, fun _ => .inl rfl⟩
  · rcases hsupplied.label?_cases_below wf₃ hroot₃ hn with ⟨hmem, hl⟩ | hl
    · refine hcells n hmem ?_
      rwa [Document.isNamed, Document.name?, ← hl]
    · rw [Document.isNamed, Document.name?, hl] at hname
      exact absurd hname (by decide)

namespace Settled

variable (h : Settled root d) (wf : d.WellFormed)
include h wf

theorem removeInsertionPoints_eq : d.removeInsertionPoints root = d := by
  have hnone : d.insertionNodes root = [] := by
    rw [insertionNodes, List.map_eq_nil_iff, List.filter_eq_nil_iff]
    intro node hnode hpoint
    obtain ⟨hmem, hne⟩ := wf.mem_descendants_iff.mp (List.mem_map_of_mem hnode)
    rw [(h.cleared _ hmem _ (wf.label?_of_mem_nodesBelow hnode)).point hne] at hpoint
    cases hpoint
  rw [removeInsertionPoints, hnone, List.foldl_nil]

/-- Texts have no marks, and if the root is a text, it stays. -/
theorem removeDirectiveText_eq (hn : n ∈ d.textElements root) : removeDirectiveText ([], d) n = ([], d) := by
  obtain ⟨hmem, htext⟩ := wf.mem_textElements_iff.mp hn
  obtain ⟨l, hl, htext'⟩ := isNamed_iff.mp htext
  have hmark : d.mark? n = l.mark? := by rw [Document.mark?, hl, Option.bind_some]
  unfold removeDirectiveText
  dsimp only
  rcases (h.cleared n hmem l hl).mark htext' with hnone | ⟨rfl, hnot⟩
  · rw [hmark, hnone]
  · have hparent := h.parent?_eq htext
    have hancestors : d.ancestors n = [] := List.head?_eq_none_iff.mp hparent
    rw [← hmark] at hnot
    split
    · rfl
    · next hplaceholder => exact absurd hplaceholder hnot
    · rw [Document.ancestorNamed?, hancestors, Document.detachFromRun, hparent, wf.detach, hparent]
      rfl

theorem removeDirectiveTexts_eq : removeDirectiveTexts strip d root = d := by
  unfold removeDirectiveTexts
  rw [foldl_eq_self fun n hn => h.removeDirectiveText_eq wf hn]
  cases strip <;> rfl

theorem ensureCellParagraphs_eq : d.ensureCellParagraphs root = d := by
  refine foldl_eq_self fun n hn => ?_
  obtain ⟨node, hnode, rfl⟩ := List.mem_map.mp hn
  obtain ⟨hnode, hname⟩ := List.mem_filter.mp hnode
  have hsome := h.supplied node.id (List.mem_map_of_mem hnode)
    (isNamed_iff.mpr ⟨_, wf.label?_of_mem_nodesBelow hnode, hname⟩)
  rw [ensureParagraph, if_pos]
  rw [List.any_eq_true]
  simpa [paragraphsIn, List.filter_eq_nil_iff] using hsome

/-- Finishing a settled scope changes nothing. -/
theorem finish_eq : d.finish strip root = d := by
  unfold Document.finish
  dsimp only
  rw [h.removeInsertionPoints_eq wf, h.removeDirectiveTexts_eq wf, h.distinct.renumberDrawings_eq wf,
    h.ensureCellParagraphs_eq wf]

/-- No text of a settled scope is a placeholder. -/
theorem placeholders_eq : d.placeholders root = [] := by
  rw [placeholders, List.filter_eq_nil_iff]
  intro n hn hplaceholder
  obtain ⟨hmem, htext⟩ := wf.mem_textElements_iff.mp hn
  obtain ⟨l, hl, htext⟩ := isNamed_iff.mp htext
  rw [Document.mark?, hl, Option.bind_some, beq_iff_eq] at hplaceholder
  rcases (h.cleared n hmem l hl).mark htext with hnone | ⟨-, hnot⟩
  · rw [hnone] at hplaceholder
    cases hplaceholder
  · exact hnot hplaceholder

end Settled

end WordTemplate
