import WordTemplate.Proofs.Word.Passes
import WordTemplate.Proofs.Word.Texts
import WordTemplate.Proofs.Xml.Indifferent
import WordTemplate.Proofs.Xml.Unchanged

/-!
# Texts whose blanks do not count

Blanks at the ends of a text count only if its element says so. What is written makes them count, so the texts
without that attribute are those that were there before, or what is left of them behind a directive.

* `Spaced`: what such texts say, whatever is asked of them (`Q`).
* `Tracks.writeText_spaced`, `Tracks.writeValue_spaced`: writing.
* `Tracks.dropFront_spaced`, `isolating_spaced`: what is left behind a directive.
-/

namespace WordTemplate

open Xml Forest

/-- Whether blanks at the ends of this element count. -/
def Xml.Label.preserves (l : Label) : Bool :=
  l.attribute? Word.spaceAttribute == some "preserve"

theorem preserves_setAttribute {label : Label} (h : label.isElement = true) :
    (label.setAttribute Word.spaceAttribute "preserve").preserves = true := by
  rw [Label.preserves, Label.attribute?_setAttribute_self h]
  rfl

/-! ## What is in a text -/

/-- The characters of the pieces of text among labels. -/
def charactersOf (kids : List Label) : List Char :=
  kids.flatMap fun kid => (kid.text?.getD "").toList

/-- Whether a piece of text has nothing below it, and a text element has only pieces of text below it, which satisfy
`Q` if blanks at its ends do not count. -/
structure Spaced (Q : List Char → Prop) (l : Label) (kids : List Label) : Prop where
  kids_eq_nil : l.isElement = false → kids = []
  isElement_eq : l.isNamed Word.text = true → ∀ kid ∈ kids, kid.isElement = false
  fits : l.isNamed Word.text = true → l.preserves = false → Q (charactersOf kids)

instance (Q : List Char → Prop) [DecidablePred Q] (l : Label) (kids : List Label) : Decidable (Spaced Q l kids) :=
  decidable_of_iff ((l.isElement = false → kids = []) ∧
      (l.isNamed Word.text = true → ∀ kid ∈ kids, kid.isElement = false) ∧
      (l.isNamed Word.text = true → l.preserves = false → Q (charactersOf kids)))
    ⟨fun h => ⟨h.1, h.2.1, h.2.2⟩, fun h => ⟨h.kids_eq_nil, h.isElement_eq, h.fits⟩⟩

/-- The same of nodes. -/
def Spacing (Q : List Char → Prop) (node : Node) (kids : List Node) : Prop :=
  Spaced Q node.label (kids.map Node.label)

/-- Whether `Q` holds of no characters, and with some characters of all at their end. -/
structure SuffixClosed (Q : List Char → Prop) : Prop where
  nil : Q []
  of_suffix : ∀ {s t}, s <:+ t → Q t → Q s

section Spaced

variable {Q Q' : List Char → Prop} {l l' : Label} {kids : List Label} {node : Node} {f : Forest Node} {k : Nat}

/-- An element that is no text may have any children. -/
theorem spaced_of_isElement (h : l.isElement = true) (htext : l.isNamed Word.text = false) : Spaced Q l kids where
  kids_eq_nil hl := by simp [h] at hl
  isElement_eq hl := by simp [htext] at hl
  fits hl := by simp [htext] at hl

/-- What has an element below it is an element that is no text. -/
theorem Spaced.of_mem {kid : Label} (h : Spaced Q l kids) (hkid : kid ∈ kids) (helement : kid.isElement = true) :
    l.isElement = true ∧ l.isNamed Word.text = false := by
  constructor
  · by_contra hl
    rw [h.kids_eq_nil (by simpa using hl)] at hkid
    cases hkid
  · by_contra htext
    rw [h.isElement_eq (by simpa using htext) kid hkid] at helement
    cases helement

/-- Another label, which says the same about blanks or that they count. -/
theorem Spaced.relabel (h : Spaced Q l kids) (hname : l'.name? = l.name?) (helement : l'.isElement = l.isElement)
    (hpreserves : l'.preserves = false → l.preserves = false) : Spaced Q l' kids := by
  have htext : l'.isNamed Word.text = l.isNamed Word.text := by rw [Label.isNamed, hname, Label.isNamed]
  exact ⟨helement ▸ h.kids_eq_nil, htext ▸ h.isElement_eq, fun hl hp => h.fits (htext ▸ hl) (hpreserves hp)⟩

theorem Spaced.mono (h : Spaced Q l kids) (hQ : ∀ s, Q s → Q' s) : Spaced Q' l kids :=
  ⟨h.kids_eq_nil, h.isElement_eq, fun hl hp => hQ _ (h.fits hl hp)⟩

theorem each_spacing_iff : Each (Spacing Q) f ↔ Each (Spaced Q) (labels f) :=
  (each_map Node.label).symm

theorem each_spacing_identify {copies : Forest Label} :
    Each (Spacing Q) (identify k copies) ↔ Each (Spaced Q) copies := by
  rw [each_spacing_iff, labels_identify]

/-- Elements can be divided, but for texts. -/
theorem divisible_spacing (Q : List Char → Prop) (fresh : Nat) : Divisible (Spacing Q) (·.isElement = true) fresh where
  above h hkid helement := by
    obtain ⟨hl, htext⟩ := Spaced.of_mem h (List.mem_map_of_mem hkid) helement
    exact ⟨hl, fun _ => ⟨spaced_of_isElement hl htext, fun _ _ => spaced_of_isElement hl htext⟩⟩
  copy _ h := each_spacing_identify.mpr (each_spacing_iff.mp h)

/-- The content of a text that has only pieces of text below it. -/
theorem innerText_eq_charactersOf {cs : Forest Label} (h : ∀ kid ∈ cs.roots, kid.isElement = false) :
    (innerText cs).toList = charactersOf cs.roots := by
  induction cs with
  | nil => rfl
  | cons kid below rest _ ih =>
    rw [roots, List.forall_mem_cons] at h
    cases kid with
    | element tag => cases h.1
    | text content =>
      rw [innerText, String.toList_append, ih h.2, roots, charactersOf, charactersOf, List.flatMap_cons]
      rfl

end Spaced

/-! ## Places -/

namespace Xml.Document

variable {Q : List Char → Prop} {d₀ d d' d₁ : Document} {n m p target : NodeId} {l : Label}

theorem name?_ne_none_iff : d.name? n ≠ none ↔ ∃ l, d.label? n = some l ∧ l.isElement = true := by
  rw [name?]
  cases d.label? n with
  | none => simp
  | some l => cases l <;> simp [Label.name?, Label.isElement]

theorem WellFormed.mem_ids_of_name? (wf : d.WellFormed) (h : d.name? n ≠ none) : n ∈ d.ids := by
  obtain ⟨l, hl, -⟩ := name?_ne_none_iff.mp h
  exact wf.mem_ids_of_label? hl

theorem name?_ne_none_of_isNamed {name : String} (h : d.isNamed n name = true) : d.name? n ≠ none := by
  rw [isNamed, beq_iff_eq] at h
  simp [h]

theorem name?_ne_none_of_attribute? {key : String} (h : d.attribute? n key ≠ none) : d.name? n ≠ none := by
  rw [name?_ne_none_iff]
  rw [attribute?] at h
  cases hl : d.label? n with
  | none => simp [hl] at h
  | some l =>
    cases l with
    | text content => simp [hl, Label.attribute?] at h
    | element tag => exact ⟨_, rfl, rfl⟩

theorem Gains.name?_ne_none (h : d₀.Gains d) (wf : d₀.WellFormed) (hn : d₀.name? n ≠ none) : d.name? n ≠ none := by
  rwa [h.name?_eq n (wf.mem_ids_of_name? hn)]

/-- Whether a node is an element that is no text. -/
def Bears (d : Document) (n : NodeId) : Prop :=
  ∃ name, d.name? n = some name ∧ name ≠ Word.text

theorem bears_of_isNamed {name : String} (h : d.isNamed n name = true) (hname : name ≠ Word.text) : d.Bears n :=
  ⟨name, by simpa [isNamed] using h, hname⟩

theorem Bears.name?_ne_none (h : d.Bears n) : d.name? n ≠ none := by
  obtain ⟨name, hn, -⟩ := h
  simp [hn]

/-- Such an element may have any children. -/
theorem Bears.indifferent (h : d.Bears n) : d.Indifferent (Spacing Q) n := by
  obtain ⟨name, hn, hname⟩ := h
  intro node cs htree kids
  obtain ⟨l, hl, helement⟩ := name?_ne_none_iff.mp (show d.name? n ≠ none by simp [hn])
  rw [name?, label?, htree] at hn
  rw [label?, htree] at hl
  obtain rfl : node.label = l := Option.some.inj hl
  have hn : node.label.name? = some name := hn
  exact spaced_of_isElement helement (by simp [Label.isNamed, hn, hname])

/-- Whether a node has no parent or one that is an element and no text. -/
def OffText (d : Document) (n : NodeId) : Prop :=
  ∀ p, d.parent? n = some p → d.Bears p

theorem OffText.movable (h : d.OffText n) : d.Movable (Spacing Q) n := fun p hp => (h p hp).indifferent

theorem Bears.of_gains (h : d.Bears n) (wf : d.WellFormed) (hg : d.Gains d') : d'.Bears n := by
  obtain ⟨name, hname, hne⟩ := h
  exact ⟨name, (hg.name?_eq n (wf.mem_ids_of_name? (by simp [hname]))).trans hname, hne⟩

/-- A node stays there if it does not get another parent. -/
theorem OffText.of_gains (h : d.OffText n) (wf : d.WellFormed) (hg : d.Gains d')
    (hp : d'.parent? n = d.parent? n ∨ d'.parent? n = none) : d'.OffText n := by
  intro p hparent
  rcases hp with he | he <;> rw [he] at hparent
  · exact (h p hparent).of_gains wf hg
  · cases hparent

/-- Elements are never directly below a text. -/
theorem WellFormed.offText_of_element (wf : d.WellFormed) (h : Each (Spacing Q) d.trees) (hn : d.name? n ≠ none) :
    d.OffText n := by
  intro p hp
  obtain ⟨A, before, a, as, after, hA, ha, rfl⟩ := wf.exists_of_parent? hp
  have hat : Spaced Q A.label ((before ++ cons a as after).roots.map Node.label) := wf.each_of_treeAt h hA
  obtain ⟨l, hl, helement⟩ := name?_ne_none_iff.mp hn
  rw [label?, ha] at hl
  obtain rfl : a.label = l := Option.some.inj hl
  obtain ⟨hAelement, hAtext⟩ := hat.of_mem (by simp [roots] : a.label ∈ _) helement
  obtain ⟨name, hname⟩ := Option.ne_none_iff_exists'.mp
    (name?_ne_none_iff.mpr ⟨A.label, by rw [label?, hA]; rfl, hAelement⟩)
  refine ⟨name, hname, ?_⟩
  rintro rfl
  rw [name?, label?, hA] at hname
  have hname : A.label.name? = some Word.text := hname
  simp [Label.isNamed, hname] at hAtext

theorem WellFormed.movable_of_element (wf : d.WellFormed) (h : Each (Spacing Q) d.trees) (hn : d.name? n ≠ none) :
    d.Movable (Spacing Q) n :=
  (wf.offText_of_element h hn).movable

/-- What a text says. -/
theorem WellFormed.spaced_of_isNamed (wf : d.WellFormed) (h : Each (Spacing Q) d.trees)
    (hn : d.isNamed n Word.text = true) : ∃ l, d.label? n = some l ∧ l.isNamed Word.text = true ∧
      (l.preserves = false → Q (d.innerText n).toList) := by
  obtain ⟨node, cs, rfl, htree⟩ := wf.exists_treeAt (wf.mem_ids_of_isNamed hn)
  obtain ⟨l, hl, htext⟩ := isNamed_iff.mp hn
  have hat : Spaced Q node.label (cs.roots.map Node.label) := wf.each_of_treeAt h htree
  have hlabel := hl
  rw [label?, htree] at hlabel
  obtain rfl : node.label = l := Option.some.inj hlabel
  rw [← roots_map, ← labels] at hat
  refine ⟨node.label, hl, htext, fun hp => ?_⟩
  rw [innerText_of_treeAt htree (Label.WellMarked.isElement_of_isNamed htext),
    innerText_eq_charactersOf (hat.isElement_eq htext)]
  exact hat.fits htext hp

/-- A new element is one beside a node as well. -/
theorem Makes.name?_ne_none_insertBeside {f : Forest Node} (hm : d.Makes d₁ m f) (wf : d.WellFormed) (hn : n ∈ d.ids)
    {put : Forest Node → Forest Node → Forest Node} (hput : ∀ f g, put f g = f ++ g ∨ put f g = g ++ f)
    (hname : d₁.name? m ≠ none) : (d₁.insertBeside put n m).name? m ≠ none := by
  rwa [name?, label?, (hm.receives wf hn).treeAt_insertBeside hm.extends_eq.grows.wellFormed hput]

/-! ## Labels -/

namespace Tracks

theorem relabel_spaced (h : Tracks (Spacing Q) d₀ d) {change : Label → Label}
    (hname : ∀ l, (change l).name? = l.name?) (helement : ∀ l, (change l).isElement = l.isElement)
    (hsame : ∀ l, l.isElement = false → change l = l)
    (hpreserves : ∀ l, l.isElement = true → (change l).preserves = false → l.preserves = false) :
    Tracks (Spacing Q) d₀ (d.relabel n change) := by
  have wf := h.wellFormed
  by_cases hn : d.name? n = none
  · refine h.relabel_of_eq fun node cs htree => hsame _ ?_
    rw [name?, label?, htree] at hn
    cases hl : node.label with
    | text content => rfl
    | element tag => simp [tree, roots, hl, Label.name?] at hn
  · refine h.relabel_of_movable (wf.movable_of_element h.each hn) fun node cs htree hnode => ⟨?_, hname _⟩
    obtain ⟨l, hl, he⟩ := name?_ne_none_iff.mp hn
    rw [label?, htree] at hl
    obtain rfl : node.label = l := Option.some.inj hl
    exact Spaced.relabel hnode (hname _) (helement _) (hpreserves _ he)

theorem setAttribute_spaced (h : Tracks (Spacing Q) d₀ d) (n : NodeId) (key value : String)
    (hkey : key = Word.spaceAttribute → value = "preserve") :
    Tracks (Spacing Q) d₀ (d.setAttribute n key value) := by
  refine h.relabel_spaced (fun _ => Label.name?_setAttribute) (fun _ => Label.isElement_setAttribute) (fun l hl => ?_)
    fun l hl hp => ?_
  · cases l with
    | text content => rfl
    | element tag => cases hl
  · by_cases hspace : key = Word.spaceAttribute
    · rw [hspace, hkey hspace, preserves_setAttribute hl] at hp
      cases hp
    · rwa [Label.preserves, Label.attribute?_setAttribute_ne (Ne.symm hspace)] at hp

theorem eraseAttribute_spaced (h : Tracks (Spacing Q) d₀ d) (n : NodeId) (key : String)
    (hkey : key ≠ Word.spaceAttribute) : Tracks (Spacing Q) d₀ (d.eraseAttribute n key) := by
  refine h.relabel_spaced (fun _ => Label.name?_eraseAttribute) (fun _ => Label.isElement_eraseAttribute)
    (fun l hl => ?_) fun l _ hp => ?_
  · cases l with
    | text content => rfl
    | element tag => cases hl
  · rwa [Label.preserves, Label.attribute?_eraseAttribute_ne hkey.symm] at hp

/-! ## Making and moving nodes -/

theorem create_spaced (h : Tracks (Spacing Q) d₀ d) (hl : l.isElement = true) (htext : l.isNamed Word.text = false) :
    Tracks (Spacing Q) d₀ (d.create l).2 :=
  h.addCopies (each_spacing_identify.mpr ⟨spaced_of_isElement hl htext, trivial, trivial⟩)

theorem detach_spaced (h : Tracks (Spacing Q) d₀ d) (hn : d.name? n ≠ none) : Tracks (Spacing Q) d₀ (d.detach n) :=
  h.detach_of_movable (h.wellFormed.movable_of_element h.each hn)

/-- Taking an element out of its run. -/
theorem detachFromRun_spaced (h : Tracks (Spacing Q) d₀ d) (hn : d.name? n ≠ none) :
    Tracks (Spacing Q) d₀ (d.detachFromRun n) := by
  have wf := h.wellFormed
  have hdetach := h.detach_spaced hn
  rcases detachFromRun_cases d n with he | ⟨run, hrun, he⟩ <;> rw [he]
  · exact hdetach
  · exact hdetach.detach_spaced (((Gains.refl wf).detach n).name?_ne_none wf
      (wf.offText_of_element h.each hn run hrun).name?_ne_none)

/-- Putting a new tree beside a node. -/
theorem insertNew_spaced {f : Forest Node} (h : Tracks (Spacing Q) d₀ d) (h₁ : Tracks (Spacing Q) d₀ d₁)
    (hm : d.Makes d₁ m f) (hmove : d₁.Movable (Spacing Q) n) (hn : n ∈ d.ids)
    {put : Forest Node → Forest Node → Forest Node} (hput : ∀ f g, put f g = f ++ g ∨ put f g = g ++ f) :
    Tracks (Spacing Q) d₀ (d₁.insertBeside put n m) :=
  h₁.insertBeside_of_movable hmove (hm.receives h.wellFormed hn) hput fun i hi => by
    rw [hm.treeAt_eq] at hi
    exact Nat.le_trans h.gains.grows.fresh_le (hm.fresh_le i hi)

/-- Putting a new element, which is no text, beside a node. -/
theorem insertElement_spaced (h : Tracks (Spacing Q) d₀ d) (hn : n ∈ d.ids) (hoff : d.OffText n)
    (hl : l.isElement = true) (htext : l.isNamed Word.text = false) {put : Forest Node → Forest Node → Forest Node}
    (hput : ∀ f g, put f g = f ++ g ∨ put f g = g ++ f) :
    Tracks (Spacing Q) d₀ ((d.create l).2.insertBeside put n d.freshId) ∧
      ((d.create l).2.insertBeside put n d.freshId).name? d.freshId ≠ none := by
  have wf := h.wellFormed
  have hmade := (refl wf h.each).create_spaced hl htext
  have hmakes : d.Makes (d.create l).2 d.freshId _ := makes_addCopies wf l nil
  have hoff₁ : (d.create l).2.OffText n := hoff.of_gains wf hmade.gains
    (.inl (wf.unchanged_addCopies (tree l nil) hn).parent?_eq)
  refine ⟨h.insertNew_spaced (h.trans hmade) hmakes hoff₁.movable hn hput, ?_⟩
  refine hmakes.name?_ne_none_insertBeside wf hn hput (name?_ne_none_iff.mpr ⟨l, ?_, hl⟩)
  rw [label?, hmakes.treeAt_eq]
  rfl

/-! ## Writing -/

/-- Changing what a text says. -/
theorem setText_spaced (h : Tracks (Spacing Q) d₀ d) (hn : d.isNamed n Word.text = true) {content : String}
    (hQ : ∀ l, d.label? n = some l → l.preserves = false → Q [] ∧ Q content.toList) :
    Tracks (Spacing Q) d₀ (d.setText n content) := by
  have wf := h.wellFormed
  obtain ⟨node, cs, rfl, htree⟩ := wf.exists_treeAt (wf.mem_ids_of_isNamed hn)
  obtain ⟨l, hl, htext⟩ := isNamed_iff.mp hn
  have hlabel := hl
  rw [label?, htree] at hlabel
  obtain rfl : node.label = l := Option.some.inj hlabel
  have helement := Label.WellMarked.isElement_of_isNamed htext
  have hempty : Tracks (Spacing Q) d₀ (d.takeChildren node.id).2 := h.takeChildren_of_imp fun node' cs' htree' _ => by
    obtain ⟨rfl, -⟩ := Forest.cons.inj (htree.symm.trans htree')
    exact ⟨fun _ => rfl, by simp, fun _ hp => (hQ _ hl hp).1⟩
  have hmem := wf.mem_ids_of_label? hl
  have hset : d.setText node.id content =
      if content.isEmpty then (d.takeChildren node.id).2
      else ((d.takeChildren node.id).2.createText content).2.append node.id
        ((d.takeChildren node.id).2.createText content).1 := by
    rw [Document.setText, hl]
    cases hnode : node.label with
    | text content => simp [hnode, Label.isElement] at helement
    | element tag => rfl
  rw [hset]
  split
  · exact hempty
  · have hmade : Tracks (Spacing Q) d₀ ((d.takeChildren node.id).2.createText content).2 :=
      hempty.addCopies (each_spacing_identify.mpr ⟨⟨fun _ => rfl, by simp [roots], by simp [Label.isNamed, Label.name?]⟩,
        trivial, trivial⟩)
    have hmakes := makes_addCopies hempty.wellFormed (.text content) nil
    have htaken := treeAt_takeChildren_spot (l := nil) (r := nil) wf (eq_wrap_nil htree)
    have hmem₁ : node.id ∈ (d.takeChildren node.id).2.ids := (wf.grows_takeChildren node.id).mem_ids _ hmem
    refine hmade.append_of_imp (hmakes.receives hempty.wellFormed hmem₁) (fun i hi => ?_) ?_
    · have hi : i ∈ Xml.ids (((d.takeChildren node.id).2.addCopies (tree (.text content) nil)).treeAt
          (d.takeChildren node.id).2.freshId) := hi
      rw [hmakes.treeAt_eq] at hi
      exact Nat.le_trans hempty.gains.grows.fresh_le (hmakes.fresh_le i hi)
    · intro node' cs' htree' _
      rw [show ((d.takeChildren node.id).2.createText content).2.treeAt node.id = _ from
        hmakes.extends_eq.treeAt_eq node.id hmem₁, htaken] at htree'
      obtain ⟨rfl, rfl, -⟩ := Forest.cons.inj htree'
      rw [show ((d.takeChildren node.id).2.createText content).2.treeAt
        ((d.takeChildren node.id).2.createText content).1 = _ from hmakes.treeAt_eq]
      refine ⟨fun hnot => ?_, fun _ kid hkid => ?_, fun _ hp => ?_⟩
      · rw [helement] at hnot
        cases hnot
      · obtain rfl : kid = .text content := by simpa [roots] using hkid
        rfl
      · simpa [roots, charactersOf, Label.text?] using (hQ _ hl hp).2

/-- Writing a text makes its blanks count. -/
theorem writeText_spaced (h : Tracks (Spacing Q) d₀ d) (hn : d.isNamed n Word.text = true) (content : String) :
    Tracks (Spacing Q) d₀ (d.writeText n content) := by
  have wf := h.wellFormed
  have hspace := h.setAttribute_spaced n Word.spaceAttribute "preserve" fun _ => rfl
  have hgains := (Gains.refl wf).setAttribute n Word.spaceAttribute "preserve"
  refine hspace.setText_spaced (by rwa [hgains.isNamed_eq (wf.mem_ids_of_isNamed hn)]) fun l hl hp => ?_
  obtain ⟨l₀, hl₀, htext⟩ := isNamed_iff.mp hn
  rw [Document.setAttribute, wf.label?_relabel_self, hl₀] at hl
  obtain rfl := Option.some.inj hl
  rw [preserves_setAttribute (Label.WellMarked.isElement_of_isNamed htext)] at hp
  cases hp

/-- Making a text. -/
theorem createTextElement_spaced (h : Tracks (Spacing Q) d₀ d) (hQ : Q []) (content : String) :
    Tracks (Spacing Q) d₀ (d.createTextElement content).2 := by
  have hmade : Tracks (Spacing Q) d₀ (d.createElement Word.text).2 :=
    h.addCopies (each_spacing_identify.mpr ⟨⟨fun _ => rfl, by simp [roots], fun _ _ => hQ⟩, trivial, trivial⟩)
  exact hmade.writeText_spaced (isNamed_freshId h.wellFormed Word.text) content

/-- Taking characters from the front of a text leaves the end of it. -/
theorem dropFront_spaced (h : Tracks (Spacing Q) d₀ d) (hQ : SuffixClosed Q) (hn : d.isNamed n Word.text = true)
    (count : Nat) : Tracks (Spacing Q) d₀ (FlatText.dropFront d n count) := by
  unfold FlatText.dropFront
  dsimp only
  split
  · exact h.detachFromRun_spaced (name?_ne_none_of_isNamed hn)
  · refine h.setText_spaced hn fun l hl hp => ⟨hQ.nil, ?_⟩
    obtain ⟨l', hl', -, hfits⟩ := h.wellFormed.spaced_of_isNamed h.each hn
    obtain rfl := Option.some.inj (hl.symm.trans hl')
    rw [String.toList_ofList]
    exact hQ.of_suffix (List.drop_suffix ..) (hfits hp)

/-- Putting a new element behind another one. -/
theorem insertAfterNew_spaced {f : Forest Node} (h : Tracks (Spacing Q) d₀ d) (h₁ : Tracks (Spacing Q) d₀ d₁)
    (hm : d.Makes d₁ m f) (hname : d.name? n ≠ none) :
    Tracks (Spacing Q) d₀ (d₁.insertAfter n m) ∧ (d₁.insertAfter n m).treeAt m = f := by
  have wf₁ := h₁.wellFormed
  obtain ⟨l, hl, -⟩ := name?_ne_none_iff.mp hname
  have hn := h.wellFormed.mem_ids_of_label? hl
  have hmove := wf₁.movable_of_element h₁.each (n := n) (by rwa [name?, label?, hm.extends_eq.treeAt_eq n hn])
  have hr := hm.receives h.wellFormed hn
  refine ⟨h.insertNew_spaced h₁ hm hmove hn fun _ _ => .inr rfl, ?_⟩
  exact (hr.treeAt_insertBeside wf₁ fun _ _ => .inr rfl).trans hm.treeAt_eq

/-- Putting a break and a line behind an element. -/
theorem insertLine_spaced (h : Tracks (Spacing Q) d₀ d) (hQ : Q []) (hn : d.name? n ≠ none) (line : String) :
    Tracks (Spacing Q) d₀ (d.insertLine n line).2 ∧ (d.insertLine n line).2.name? (d.insertLine n line).1 ≠ none := by
  have hbreak : Tracks (Spacing Q) d₀ (d.createElement Word.lineBreak).2 := h.create_spaced rfl rfl
  obtain ⟨h₁, htree₁⟩ := h.insertAfterNew_spaced hbreak
    (makes_addCopies h.wellFormed (.element ⟨Word.lineBreak, []⟩) nil) hn
  generalize hd₁ : (d.createElement Word.lineBreak).2.insertAfter n d.freshId = d₁ at h₁ htree₁
  obtain ⟨f, hf, htext⟩ := createTextElement_spec h₁.wellFormed line
  rw [insertLine_eq line hd₁]
  obtain ⟨h₂, htree₂⟩ := h₁.insertAfterNew_spaced (h₁.createTextElement_spaced hQ line) htext (n := d.freshId)
    (by rw [name?, label?, htree₁]; simp [tree, roots, Label.name?])
  refine ⟨h₂, ?_⟩
  have hlabels : (labels f).roots.head?.bind Label.name? = some Word.text := by
    rw [hf]
    rfl
  rw [name?, label?, htree₂, ← List.head?_map, ← roots_map, ← labels, hlabels]
  simp

/-- Putting lines behind an element. -/
theorem insertLines_spaced (h : Tracks (Spacing Q) d₀ d) (hQ : Q []) (hn : d.name? n ≠ none) (lines : List String) :
    Tracks (Spacing Q) d₀ (lines.foldl (fun (cursor, d) line => d.insertLine cursor line) (n, d)).2 := by
  induction lines generalizing d n with
  | nil => exact h
  | cons line lines ih =>
    have hline := h.insertLine_spaced hQ hn line
    rw [foldl_insertLine_cons]
    generalize d.insertLine n line = result at hline ⊢
    obtain ⟨cursor, d'⟩ := result
    exact ih hline.1 hline.2

/-- Writing a value. -/
theorem writeValue_spaced (h : Tracks (Spacing Q) d₀ d) (hQ : Q []) (hn : d.isNamed n Word.text = true)
    (value : String) : Tracks (Spacing Q) d₀ (d.writeValue n value) := by
  have wf := h.wellFormed
  have hmem := wf.mem_ids_of_isNamed hn
  have hunmarked := h.eraseAttribute_spaced n Word.markAttribute (by decide)
  have hgains : d.Gains (d.eraseAttribute n Word.markAttribute) :=
    (Gains.refl wf).relabel n fun _ _ => Label.name?_eraseAttribute
  have hn₁ : (d.eraseAttribute n Word.markAttribute).isNamed n Word.text = true := by rwa [hgains.isNamed_eq hmem]
  unfold Document.writeValue
  dsimp only
  split
  · exact hunmarked.writeText_spaced hn₁ ""
  · next first others _ =>
    have hwritten := (refl hunmarked.wellFormed hunmarked.each).writeText_spaced hn₁ first
    refine (hunmarked.trans hwritten).insertLines_spaced hQ ?_ others
    exact hwritten.gains.name?_ne_none hunmarked.wellFormed (name?_ne_none_of_isNamed hn₁)

end Tracks

end Xml.Document

/-! ## Isolating directives -/

theorem Xml.Document.Gains.isNamed_of {d d' : Document} {n : NodeId} {name : String} (h : d.Gains d')
    (wf : d.WellFormed) (hn : d.isNamed n name = true) : d'.isNamed n name = true := by
  rwa [h.isNamed_eq (wf.mem_ids_of_isNamed hn)]

/-- Isolating directives leaves the ends of texts. -/
theorem isolating_spaced {Q : List Char → Prop} (hQ : SuffixClosed Q) :
    Isolating (fun d => d.WellFormed ∧ Each (Spacing Q) d.trees) (fun d n => d.isNamed n Word.text = true)
      (Document.Tracks (Spacing Q)) where
  refl h := .refl h.1 h.2
  trans h h' := h.trans h'
  ready_kept _ h := ⟨h.wellFormed, h.each⟩
  spot_kept h h' hn := h'.gains.isNamed_of h.1 hn
  writeText h hn content := (Document.Tracks.refl h.1 h.2).writeText_spaced hn content
  setMark {d n} h hn name := (Document.Tracks.refl h.1 h.2).setAttribute_spaced n Word.markAttribute name fun he =>
    absurd he (by decide)
  insertText {d n put} h hn hput content := by
    have wf := h.1
    obtain ⟨f, hf, hmakes⟩ := Document.createTextElement_spec wf content
    have hmade := (Document.Tracks.refl wf h.2).createTextElement_spaced hQ.nil content
    have hmem := wf.mem_ids_of_isNamed hn
    have hmove := hmade.wellFormed.movable_of_element hmade.each
      (Document.name?_ne_none_of_isNamed (hmade.gains.isNamed_of wf hn))
    refine ⟨(Document.Tracks.refl wf h.2).insertNew_spaced hmade hmakes hmove hmem hput, ?_⟩
    have htree := ((hmakes.receives wf hmem).treeAt_insertBeside hmade.wellFormed hput).trans hmakes.treeAt_eq
    have hlabels : (labels f).roots.head?.bind Label.name? = some Word.text := by
      rw [hf]
      rfl
    rw [Document.isNamed, Document.name?, Document.label?, htree, ← List.head?_map, ← roots_map, ← labels, hlabels]
    exact beq_self_eq_true _
  dropFront h hn count := (Document.Tracks.refl h.1 h.2).dropFront_spaced hQ hn count

end WordTemplate
