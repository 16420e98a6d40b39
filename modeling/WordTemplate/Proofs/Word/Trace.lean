import WordTemplate.FlatText
import WordTemplate.Proofs.Word.Detachment
import WordTemplate.Proofs.Word.Mark
import WordTemplate.Proofs.Word.Writing
import WordTemplate.Proofs.Xml.Each

/-!
# Traces of processing

Processing leaves marks, insertion points and elements of its own in a document until they are taken
away at the end. `Traced` says of every node what can be known about them all the while: marks are
only on texts, there are no two of one kind on a node, no fragment is below another node, and an
element that was not there in the beginning has an insertion point and no children.

* `Watch`: what is observed, the nodes that are directives and the attributes that all paragraphs and
  rows had in the beginning.
* `Tracks.writeText`, `Tracks.writeValue`, `Tracks.dropFront`: writing texts keeps it.
-/

namespace WordTemplate

open Xml Forest

/-! ## Attributes that are set once -/

namespace Xml.Label

variable {l : Label} {key other value : String}

/-- How often an element has an attribute. -/
def occurrences (key : String) : Label → Nat
  | element tag => tag.attributes.countP (·.1 == key)
  | text _ => 0

theorem attribute?_eq_none_iff : l.attribute? key = none ↔ l.occurrences key = 0 := by
  cases l with
  | text content => simp [attribute?, occurrences]
  | element tag =>
    rw [attribute?, occurrences]
    induction tag.attributes with
    | nil => simp
    | cons a rest ih =>
      obtain ⟨k, v⟩ := a
      by_cases hk : k = key
      · simp [hk]
      · have hb : (key == k) = false := by simpa using Ne.symm hk
        simpa [List.lookup_cons, hb, hk] using ih

theorem occurrences_setAttribute_ne (h : other ≠ key) :
    (l.setAttribute key value).occurrences other = l.occurrences other := by
  cases l with
  | text content => rfl
  | element tag =>
    rw [setAttribute, occurrences, occurrences, List.countP_eq_length_filter,
      filter_putAttribute_ne h, List.countP_eq_length_filter]

theorem occurrences_setAttribute_le (h : l.occurrences key ≤ 1) :
    (l.setAttribute key value).occurrences key ≤ 1 := by
  have hput : ∀ attributes : List Attribute, attributes.countP (·.1 == key) ≤ 1 →
      (putAttribute key value attributes).countP (·.1 == key) ≤ 1 := by
    intro attributes h
    induction attributes with
    | nil => simp [putAttribute]
    | cons a rest ih =>
      obtain ⟨k, v⟩ := a
      rw [putAttribute]
      by_cases hk : k = key
      · rw [List.countP_cons] at h
        simp only [hk, if_true, beq_self_eq_true, List.countP_cons] at h ⊢
        exact h
      · have hk' : (k == key) = false := by simpa using hk
        simp only [hk, hk', if_false, List.countP_cons, Bool.false_eq_true, Nat.add_zero] at h ⊢
        exact ih h
  cases l with
  | text content => exact h
  | element tag => exact hput tag.attributes h

theorem occurrences_eraseAttribute_ne (h : other ≠ key) :
    (l.eraseAttribute key).occurrences other = l.occurrences other := by
  cases l with
  | text content => rfl
  | element tag =>
    rw [eraseAttribute, occurrences, occurrences, Xml.eraseAttribute]
    induction tag.attributes with
    | nil => rfl
    | cons a rest ih =>
      obtain ⟨k, v⟩ := a
      rw [List.eraseP_cons]
      by_cases hk : k = key
      · have hko : (key == other) = false := by simpa using Ne.symm h
        simp [hk, hko]
      · have hk' : (k == key) = false := by simpa using hk
        simp only [hk', cond_false, List.countP_cons, ih]

theorem occurrences_eraseAttribute_self :
    (l.eraseAttribute key).occurrences key = l.occurrences key - 1 := by
  cases l with
  | text content => rfl
  | element tag =>
    rw [eraseAttribute, occurrences, occurrences, Xml.eraseAttribute]
    induction tag.attributes with
    | nil => rfl
    | cons a rest ih =>
      obtain ⟨k, v⟩ := a
      rw [List.eraseP_cons]
      by_cases hk : k = key
      · simp [hk]
      · have hk' : (k == key) = false := by simpa using hk
        simpa [hk', List.countP_cons] using ih

/-- Setting an attribute takes no other one away. -/
theorem attribute?_setAttribute_ne_none (h : l.attribute? other ≠ none) :
    (l.setAttribute key value).attribute? other ≠ none := by
  by_cases he : other = key
  · subst he
    cases l with
    | text content => exact absurd rfl h
    | element tag =>
      rw [attribute?_setAttribute_self rfl]
      simp
  · rwa [attribute?_setAttribute_ne he]

/-- Whether marks are only on texts and say a kind of directive, and neither a mark nor an insertion
point is there twice. -/
structure WellMarked (l : Label) : Prop where
  named : l.attribute? Word.markAttribute ≠ none → l.isNamed Word.text = true ∧ l.mark? ≠ none
  mark_le : l.occurrences Word.markAttribute ≤ 1
  insertion_le : l.occurrences Word.insertionAttribute ≤ 1

namespace WellMarked

theorem of_none (hm : l.attribute? Word.markAttribute = none)
    (hi : l.attribute? Word.insertionAttribute = none) : l.WellMarked where
  named h := absurd hm h
  mark_le := by rw [attribute?_eq_none_iff.mp hm]; exact Nat.zero_le _
  insertion_le := by rw [attribute?_eq_none_iff.mp hi]; exact Nat.zero_le _

/-- Setting an attribute that is no mark. -/
theorem setAttribute (h : l.WellMarked) (hm : key ≠ Word.markAttribute) (value : String) :
    (l.setAttribute key value).WellMarked where
  named := by
    rw [mark?, attribute?_setAttribute_ne (Ne.symm hm), isNamed_setAttribute]
    exact h.named
  mark_le := by
    rw [occurrences_setAttribute_ne (Ne.symm hm)]
    exact h.mark_le
  insertion_le := by
    by_cases hi : key = Word.insertionAttribute
    · subst hi
      exact occurrences_setAttribute_le h.insertion_le
    · rw [occurrences_setAttribute_ne (Ne.symm hi)]
      exact h.insertion_le

theorem mark?_setMark (hl : l.isElement = true) (kind : Directive.Kind) :
    (l.setAttribute Word.markAttribute kind.name).mark? = some kind := by
  rw [mark?, attribute?_setAttribute_self hl, Option.bind_some, Directive.Kind.ofName?_name]

theorem isElement_of_isNamed {name : String} (h : l.isNamed name = true) : l.isElement = true := by
  cases l with
  | text content => simp [isNamed, name?] at h
  | element tag => rfl

/-- Marking a text. -/
theorem setMark (h : l.WellMarked) (hn : l.isNamed Word.text = true) (kind : Directive.Kind) :
    (l.setAttribute Word.markAttribute kind.name).WellMarked where
  named _ := by
    rw [isNamed_setAttribute, mark?_setMark (isElement_of_isNamed hn)]
    exact ⟨hn, by simp⟩
  mark_le := occurrences_setAttribute_le h.mark_le
  insertion_le := by
    rw [occurrences_setAttribute_ne (by decide)]
    exact h.insertion_le

theorem attribute?_eraseMark (h : l.WellMarked) :
    (l.eraseAttribute Word.markAttribute).attribute? Word.markAttribute = none := by
  rw [attribute?_eq_none_iff, occurrences_eraseAttribute_self]
  exact Nat.sub_eq_zero_of_le h.mark_le

theorem attribute?_eraseInsertion (h : l.WellMarked) :
    (l.eraseAttribute Word.insertionAttribute).attribute? Word.insertionAttribute = none := by
  rw [attribute?_eq_none_iff, occurrences_eraseAttribute_self]
  exact Nat.sub_eq_zero_of_le h.insertion_le

theorem eraseMark (h : l.WellMarked) : (l.eraseAttribute Word.markAttribute).WellMarked where
  named hne := absurd h.attribute?_eraseMark hne
  mark_le := by
    rw [attribute?_eq_none_iff.mp h.attribute?_eraseMark]
    exact Nat.zero_le _
  insertion_le := by
    rw [occurrences_eraseAttribute_ne (by decide)]
    exact h.insertion_le

theorem eraseInsertion (h : l.WellMarked) :
    (l.eraseAttribute Word.insertionAttribute).WellMarked where
  named := by
    rw [mark?, attribute?_eraseAttribute_ne (by decide), isNamed_eraseAttribute]
    exact h.named
  mark_le := by
    rw [occurrences_eraseAttribute_ne (by decide)]
    exact h.mark_le
  insertion_le := by
    rw [attribute?_eq_none_iff.mp h.attribute?_eraseInsertion]
    exact Nat.zero_le _

end WellMarked

/-- Whether this is an element of a kind that processing puts in for the boundaries of blocks. -/
def isParagraphOrRow (l : Label) : Bool :=
  l.isNamed Word.paragraph || l.isNamed Word.row

theorem isParagraphOrRow_congr {l l' : Label} (h : l'.name? = l.name?) :
    l'.isParagraphOrRow = l.isParagraphOrRow := by
  simp [isParagraphOrRow, isNamed, h]

theorem isParagraphOrRow_of_text (h : l.isNamed Word.text = true) : l.isParagraphOrRow = false := by
  have hn : l.name? = some Word.text := by simpa [isNamed] using h
  have hp : (some Word.text == some Word.paragraph) = false := by decide
  have hr : (some Word.text == some Word.row) = false := by decide
  simp [isParagraphOrRow, isNamed, hn, hp, hr]

theorem isParagraphOrRow_of_fragment (h : l.isNamed Word.fragment = true) :
    l.isParagraphOrRow = false := by
  have hn : l.name? = some Word.fragment := by simpa [isNamed] using h
  have hp : (some Word.fragment == some Word.paragraph) = false := by decide
  have hr : (some Word.fragment == some Word.row) = false := by decide
  simp [isParagraphOrRow, isNamed, hn, hp, hr]

theorem isNamed_fragment_of_text (h : l.isNamed Word.text = true) :
    l.isNamed Word.fragment = false := by
  have hn : l.name? = some Word.text := by simpa [isNamed] using h
  have hf : (some Word.text == some Word.fragment) = false := by decide
  rw [isNamed, hn, hf]

end Xml.Label

/-! ## What is known of every node -/

/-- Nodes without traces of processing. -/
structure TraceFree (nodes : List Node) : Prop where
  mark_eq : ∀ node ∈ nodes, node.label.attribute? Word.markAttribute = none
  insertion_eq : ∀ node ∈ nodes, node.label.attribute? Word.insertionAttribute = none
  not_fragment : ∀ node ∈ nodes, node.label.isNamed Word.fragment = false

/-- What is observed while a document is processed. -/
structure Watch where
  /-- The nodes that are directives and no placeholders. -/
  directive : NodeId → Prop
  /-- The elements put in for a boundary that do not have their insertion point yet. -/
  pending : NodeId → Prop
  /-- The attributes that all paragraphs and rows have that were there in the beginning. -/
  keys : String → Prop

/-- Whether no node from the number `k` on is observed. -/
structure Watch.Old (W : Watch) (k : Nat) : Prop where
  directive : ∀ i : NodeId, k ≤ i.number → ¬ W.directive i
  pending : ∀ i : NodeId, k ≤ i.number → ¬ W.pending i

theorem Watch.Old.mono {W : Watch} {k k' : Nat} (h : W.Old k) (hle : k ≤ k') : W.Old k' where
  directive i hi := h.directive i (Nat.le_trans hle hi)
  pending i hi := h.pending i (Nat.le_trans hle hi)

/-- Whether an attribute is missing that all paragraphs and rows had in the beginning. -/
def Watch.Lacks (W : Watch) (l : Label) : Prop :=
  ∃ key, W.keys key ∧ l.attribute? key = none

/-- What is known of a node and its children while a document is processed. -/
structure Traced (W : Watch) (node : Node) (kids : List Node) : Prop where
  wellMarked : node.label.WellMarked
  kids_ne : ∀ kid ∈ kids, kid.label.isNamed Word.fragment = false
  directive : W.directive node.id → node.label.isDirectiveText = true
  keyed : node.label.isParagraphOrRow = true → W.Lacks node.label →
    (W.pending node.id ∨ node.label.attribute? Word.insertionAttribute ≠ none) ∧ kids = []

section Traced

variable {W : Watch} {n : NodeId} {l l' : Label} {kids kids' : List Node}

theorem permits_traced (W : Watch) :
    Document.Permits (Traced W) fun l => l.isNamed Word.fragment = false where
  admits h := h.kids_ne
  change h hne hkids :=
    ⟨h.wellMarked, hkids, h.directive, fun hp hk => absurd (h.keyed hp hk).2 hne⟩

theorem Traced.mono {W' : Watch} {node : Node} (h : Traced W node kids)
    (hkeys : W'.keys = W.keys) (hpending : W.pending node.id → W'.pending node.id)
    (hdir : W'.directive node.id → W.directive node.id ∨ node.label.isDirectiveText = true) :
    Traced W' node kids where
  wellMarked := h.wellMarked
  kids_ne := h.kids_ne
  directive hd := (hdir hd).elim h.directive id
  keyed hp hk := by
    rw [Watch.Lacks, hkeys] at hk
    obtain ⟨hi, hkids⟩ := h.keyed hp hk
    exact ⟨hi.imp_left hpending, hkids⟩

/-- Changing the children of a node that is neither a paragraph nor a row. -/
theorem Traced.change (h : Traced W ⟨n, l⟩ kids) (hl : l.isParagraphOrRow = false)
    (hkids : ∀ kid ∈ kids', kid.label.isNamed Word.fragment = false) : Traced W ⟨n, l⟩ kids' :=
  ⟨h.wellMarked, hkids, h.directive, fun hp => by simp [hl] at hp⟩

theorem Traced.nil (h : Traced W ⟨n, l⟩ kids) : Traced W ⟨n, l⟩ [] :=
  ⟨h.wellMarked, by simp, h.directive, fun hp hk => ⟨(h.keyed hp hk).1, rfl⟩⟩

/-- Changing the label of a node. -/
theorem Traced.relabel (h : Traced W ⟨n, l⟩ kids) (hl : l'.WellMarked) (hname : l'.name? = l.name?)
    (hdirective : W.directive n → l.isDirectiveText = true → l'.isDirectiveText = true)
    (hkey : ∀ key, W.keys key → l'.attribute? key = none → l.attribute? key = none)
    (hinsertion : kids = [] → l.attribute? Word.insertionAttribute ≠ none →
      l'.attribute? Word.insertionAttribute ≠ none) : Traced W ⟨n, l'⟩ kids where
  wellMarked := hl
  kids_ne := h.kids_ne
  directive hd := hdirective hd (h.directive hd)
  keyed hp hk := by
    obtain ⟨key, hkeys, hnone⟩ := hk
    obtain ⟨hi, hkids⟩ := h.keyed (by rwa [← Label.isParagraphOrRow_congr hname])
      ⟨key, hkeys, hkey key hkeys hnone⟩
    exact ⟨hi.imp_right (hinsertion hkids), hkids⟩

/-- Setting an attribute that is no mark. -/
theorem Traced.setAttribute {key : String} (h : Traced W ⟨n, l⟩ kids) (hm : key ≠ Word.markAttribute)
    (value : String) : Traced W ⟨n, l.setAttribute key value⟩ kids := by
  refine h.relabel (h.wellMarked.setAttribute hm value) Label.name?_setAttribute (fun _ hd => ?_)
    (fun _ _ hk => ?_) fun _ => Label.attribute?_setAttribute_ne_none
  · rwa [Label.isDirectiveText, Label.mark?, Label.attribute?_setAttribute_ne (Ne.symm hm)]
  · by_contra hne
    exact Label.attribute?_setAttribute_ne_none hne hk

/-- Marking a text. A directive that is observed does not become a placeholder. -/
theorem Traced.setMark {kind : Directive.Kind} (h : Traced W ⟨n, l⟩ kids)
    (hn : l.isNamed Word.text = true) (hd : W.directive n → kind ≠ .placeholder) :
    Traced W ⟨n, l.setAttribute Word.markAttribute kind.name⟩ kids := by
  refine h.relabel (h.wellMarked.setMark hn kind) Label.name?_setAttribute (fun hdir _ => ?_)
    (fun _ _ hk => ?_) fun _ => Label.attribute?_setAttribute_ne_none
  · rw [Label.isDirectiveText, Label.WellMarked.mark?_setMark (Label.WellMarked.isElement_of_isNamed hn)]
    simpa using hd hdir
  · by_contra hne
    exact Label.attribute?_setAttribute_ne_none hne hk

/-- Taking the mark off a node that is no directive. -/
theorem Traced.eraseMark (h : Traced W ⟨n, l⟩ kids) (hd : ¬ W.directive n)
    (hkey : ¬ W.keys Word.markAttribute) :
    Traced W ⟨n, l.eraseAttribute Word.markAttribute⟩ kids := by
  refine h.relabel h.wellMarked.eraseMark Label.name?_eraseAttribute (fun hdir => absurd hdir hd)
    (fun key hkeys hk => ?_) fun _ hi => ?_
  · rwa [Label.attribute?_eraseAttribute_ne (by rintro rfl; exact hkey hkeys)] at hk
  · rwa [Label.attribute?_eraseAttribute_ne (by decide)]

/-- Taking the insertion point off a node with children. -/
theorem Traced.eraseInsertion (h : Traced W ⟨n, l⟩ kids) (hkids : kids ≠ [])
    (hkey : ¬ W.keys Word.insertionAttribute) :
    Traced W ⟨n, l.eraseAttribute Word.insertionAttribute⟩ kids := by
  refine h.relabel h.wellMarked.eraseInsertion Label.name?_eraseAttribute (fun _ hd => ?_)
    (fun key hkeys hk => ?_) fun he => absurd he hkids
  · rwa [Label.isDirectiveText, Label.mark?, Label.attribute?_eraseAttribute_ne (by decide)]
  · rwa [Label.attribute?_eraseAttribute_ne (by rintro rfl; exact hkey hkeys)] at hk

/-- A new node that is neither a paragraph nor a row. -/
theorem traced_new (hl : l.WellMarked) (hp : l.isParagraphOrRow = false) (hd : ¬ W.directive n)
    (hkids : ∀ kid ∈ kids, kid.label.isNamed Word.fragment = false) : Traced W ⟨n, l⟩ kids :=
  ⟨hl, hkids, fun h => absurd h hd, fun h => by simp [hp] at h⟩

/-- What is known of the nodes of trees is known of the nodes of copies. -/
theorem each_identify {f : Forest Node} {k : Nat} (h : Each (Traced W) f)
    (hf : ∀ i ∈ Xml.ids f, ¬ W.pending i) (hW : W.Old k) :
    Each (Traced W) (identify k (labels f)) := by
  have hlabels : Each (fun (l : Label) ls => l.WellMarked ∧
      (∀ kid ∈ ls, kid.isNamed Word.fragment = false) ∧
      (l.isParagraphOrRow = true → W.Lacks l →
        l.attribute? Word.insertionAttribute ≠ none ∧ ls = [])) (labels f) := by
    rw [labels, each_map]
    refine h.mono_of_mem fun node hmem kids ht => ⟨ht.wellMarked, ?_, fun hp hk => ?_⟩
    · intro kid hkid
      obtain ⟨a, ha, rfl⟩ := List.mem_map.mp hkid
      exact ht.kids_ne a ha
    · obtain ⟨hi, rfl⟩ := ht.keyed hp hk
      exact ⟨hi.resolve_left (hf _ (List.mem_map_of_mem hmem)), rfl⟩
  rw [← map_snd_number k (labels f), each_map] at hlabels
  rw [identify, each_map]
  refine hlabels.mono_of_mem fun a ha bs hQ => ?_
  obtain ⟨hl, hkids, hkeyed⟩ := hQ
  have hle : k ≤ a.1 := by
    have := List.mem_map_of_mem (f := Prod.fst) ha
    rw [map_fst_toList_number, List.mem_range'_1] at this
    exact this.1
  refine ⟨hl, fun kid hkid => ?_, fun hd => absurd hd (hW.directive ⟨a.1⟩ hle), fun hp hk => ?_⟩
  · obtain ⟨b, hb, rfl⟩ := List.mem_map.mp hkid
    exact hkids b.2 (List.mem_map_of_mem hb)
  · obtain ⟨hi, hnil⟩ := hkeyed hp hk
    rw [List.map_eq_nil_iff] at hnil
    exact ⟨.inr hi, by rw [hnil, List.map_nil]⟩

end Traced

/-! ## Writing texts -/

namespace Xml.Document

section Writing

variable {W : Watch} {d₀ d : Document} {n : NodeId}

theorem Tracks.setAttribute (h : Tracks (Traced W) d₀ d) {key : String}
    (hm : key ≠ Word.markAttribute) (value : String) :
    Tracks (Traced W) d₀ (d.setAttribute n key value) :=
  h.relabel (permits_traced W) fun _ _ _ ht =>
    ⟨ht.setAttribute hm value, by simp, Label.name?_setAttribute⟩

theorem Tracks.setMark (h : Tracks (Traced W) d₀ d) {kind : Directive.Kind}
    (hn : d.isNamed n Word.text = true) (hd : W.directive n → kind ≠ .placeholder) :
    Tracks (Traced W) d₀ (d.setAttribute n Word.markAttribute kind.name) := by
  obtain ⟨l, hl, htext⟩ := isNamed_iff.mp hn
  refine h.relabel (permits_traced W) fun node cs htree ht => ?_
  rw [label?, htree] at hl
  obtain rfl : node.label = l := Option.some.inj hl
  rw [← (h.wellFormed.mem_ids_of_treeAt htree).2] at hd
  exact ⟨ht.setMark htext hd, by simp, Label.name?_setAttribute⟩

theorem Tracks.eraseMark (h : Tracks (Traced W) d₀ d) (hd : ¬ W.directive n)
    (hkey : ¬ W.keys Word.markAttribute) :
    Tracks (Traced W) d₀ (d.eraseAttribute n Word.markAttribute) :=
  h.relabel (permits_traced W) fun node cs htree ht => by
    rw [← (h.wellFormed.mem_ids_of_treeAt htree).2] at hd
    exact ⟨ht.eraseMark hd hkey, by simp, Label.name?_eraseAttribute⟩

/-- Taking the insertion point off a node with children. -/
theorem Tracks.eraseInsertion (h : Tracks (Traced W) d₀ d) (hn : d.children n ≠ [])
    (hkey : ¬ W.keys Word.insertionAttribute) :
    Tracks (Traced W) d₀ (d.eraseAttribute n Word.insertionAttribute) :=
  h.relabel (permits_traced W) fun node cs htree ht => by
    refine ⟨ht.eraseInsertion (fun hnil => hn ?_) hkey, by simp, Label.name?_eraseAttribute⟩
    rw [children, htree]
    exact List.map_eq_nil_iff.mpr hnil

/-- Making a node that is neither a paragraph nor a row. -/
theorem Tracks.create (h : Tracks (Traced W) d₀ d) (hW : W.Old d₀.fresh) {l : Label}
    (hl : l.WellMarked) (hp : l.isParagraphOrRow = false) : Tracks (Traced W) d₀ (d.create l).2 := by
  refine h.addCopies ?_
  show Each (Traced W) (cons ⟨⟨d.fresh⟩, l⟩ nil nil)
  exact ⟨traced_new hl hp (hW.directive _ h.gains.grows.fresh_le) (by simp [roots]), trivial, trivial⟩

/-- Changing what a text says. -/
theorem Tracks.setText (h : Tracks (Traced W) d₀ d) (hW : W.Old d₀.fresh)
    (hn : d.isNamed n Word.text = true) (content : String) :
    Tracks (Traced W) d₀ (d.setText n content) := by
  have hP := permits_traced W
  have wf := h.wellFormed
  obtain ⟨l, hl, htext⟩ := isNamed_iff.mp hn
  have hempty : Tracks (Traced W) d₀ (d.takeChildren n).2 :=
    h.takeChildren hP fun _ _ _ ht => ht.nil
  have hmem := wf.mem_ids_of_label? hl
  have hmem₁ : n ∈ (d.takeChildren n).2.ids := (wf.grows_takeChildren n).mem_ids n hmem
  have hset : d.setText n content =
      if content.isEmpty then (d.takeChildren n).2
      else ((d.takeChildren n).2.createText content).2.append n
        ((d.takeChildren n).2.createText content).1 := by
    rw [Document.setText, hl]
    cases l with
    | text content => simp [Label.isNamed, Label.name?] at htext
    | element tag => rfl
  rw [hset]
  split
  · exact hempty
  · have hmade := hempty.create hW (l := .text content) (.of_none rfl rfl) rfl
    have hmakes := makes_addCopies hempty.wellFormed (.text content) nil
    refine hmade.append hP (hmakes.receives hempty.wellFormed hmem₁) (fun i hi => ?_) ?_
    · have hi : i ∈ Xml.ids (((d.takeChildren n).2.addCopies (tree (.text content) nil)).treeAt
          (d.takeChildren n).2.freshId) := hi
      rw [hmakes.treeAt_eq] at hi
      exact Nat.le_trans hempty.gains.grows.fresh_le (hmakes.fresh_le i hi)
    · intro node cs htree ht
      -- The element is still the text that it was.
      have hname : (((d.takeChildren n).2.createText content).2).isNamed n Word.text = true := by
        have hg : d.Gains ((d.takeChildren n).2.createText content).2 :=
          ((Gains.refl wf).takeChildren n).addCopies _
        rw [hg.isNamed_eq hmem]
        exact hn
      obtain ⟨l₂, hl₂, htext₂⟩ := isNamed_iff.mp hname
      rw [label?, htree] at hl₂
      obtain rfl : node.label = l₂ := Option.some.inj hl₂
      refine ht.change (Label.isParagraphOrRow_of_text htext₂) fun kid hkid => ?_
      rcases List.mem_append.mp hkid with hkid | hkid
      · exact ht.kids_ne kid hkid
      · have hkid : kid ∈ (((d.takeChildren n).2.addCopies (tree (.text content) nil)).treeAt
          (d.takeChildren n).2.freshId).roots := hkid
        rw [hmakes.treeAt_eq] at hkid
        obtain rfl : kid = _ := by simpa using hkid
        rfl

theorem Gains.setAttribute (h : d₀.Gains d) (n : NodeId) (key value : String) :
    d₀.Gains (d.setAttribute n key value) :=
  h.relabel n fun _ _ => Label.name?_setAttribute

theorem Tracks.writeText (h : Tracks (Traced W) d₀ d) (hW : W.Old d₀.fresh)
    (hn : d.isNamed n Word.text = true) (content : String) :
    Tracks (Traced W) d₀ (d.writeText n content) := by
  have hspace : Tracks (Traced W) d₀ (d.setAttribute n Word.spaceAttribute "preserve") :=
    h.setAttribute (by decide) "preserve"
  exact hspace.setText hW (by rwa [((Gains.refl h.wellFormed).setAttribute n _ _).isNamed_eq
    (h.wellFormed.mem_ids_of_isNamed hn)]) content

/-- Putting a new tree beside a node. -/
theorem Tracks.insertNew {d₁ : Document} {m : NodeId} {f : Forest Node} (h : Tracks (Traced W) d₀ d)
    (h₁ : Tracks (Traced W) d₀ d₁) (hm : d.Makes d₁ m f)
    (hf : ∀ node ∈ f.roots, node.label.isNamed Word.fragment = false) (hn : n ∈ d.ids)
    {put : Forest Node → Forest Node → Forest Node}
    (hput : ∀ f g, put f g = f ++ g ∨ put f g = g ++ f) :
    Tracks (Traced W) d₀ (d₁.insertBeside put n m) :=
  h₁.insertBeside (permits_traced W) (hm.receives h.wellFormed hn) hput
    (fun i hi => by
      rw [hm.treeAt_eq] at hi
      exact Nat.le_trans h.gains.grows.fresh_le (hm.fresh_le i hi))
    (by rwa [hm.treeAt_eq])

theorem isNamed_freshId (wf : d.WellFormed) (name : String) :
    (d.createElement name).2.isNamed d.freshId name = true := by
  refine isNamed_iff.mpr ⟨.element ⟨name, []⟩, ?_, by simp [Label.isNamed, Label.name?]⟩
  have ht := wf.treeAt_freshId (.element ⟨name, []⟩) nil
  show Option.map Node.label (((d.addCopies (tree (.element ⟨name, []⟩) nil)).treeAt
    d.freshId).roots.head?) = _
  rw [ht]
  rfl

theorem Tracks.createTextElement (h : Tracks (Traced W) d₀ d) (hW : W.Old d₀.fresh)
    (content : String) : Tracks (Traced W) d₀ (d.createTextElement content).2 :=
  (h.create hW (l := .element ⟨Word.text, []⟩) (.of_none rfl rfl) (by decide)).writeText hW
    (isNamed_freshId h.wellFormed Word.text) content

theorem roots_textElement {f : Forest Node} {content : String} (hf : labels f = textElement content) :
    ∀ node ∈ f.roots, node.label.isNamed Word.text = true := by
  cases f with
  | nil => simp [textElement, tree] at hf
  | cons a as rest =>
    simp only [labels_cons, textElement, tree, Forest.cons.injEq] at hf
    have hrest : rest = nil := by
      cases rest with
      | nil => rfl
      | cons => simp at hf
    simp [roots, hrest, hf.1, Label.isNamed, Label.name?, Label.setAttribute]

theorem Tracks.insertAfterNew {d₁ : Document} {m : NodeId} {f : Forest Node}
    (h : Tracks (Traced W) d₀ d) (h₁ : Tracks (Traced W) d₀ d₁) (hm : d.Makes d₁ m f)
    (hf : ∀ node ∈ f.roots, node.label.isNamed Word.fragment = false) (hn : n ∈ d.ids) :
    Tracks (Traced W) d₀ (d₁.insertAfter n m) ∧ m ∈ (d₁.insertAfter n m).ids :=
  ⟨h.insertNew h₁ hm hf hn fun _ _ => .inr rfl,
    (hm.extends_eq.grows.wellFormed.grows_beside (hm.receives h.wellFormed hn)
      fun _ _ => .inr rfl).mem_ids _ hm.mem_ids⟩

/-- Putting a break and a line behind a node. -/
theorem Tracks.insertLine (h : Tracks (Traced W) d₀ d) (hW : W.Old d₀.fresh) (hn : n ∈ d.ids)
    (line : String) :
    Tracks (Traced W) d₀ (d.insertLine n line).2 ∧
      (d.insertLine n line).1 ∈ (d.insertLine n line).2.ids := by
  have hbreak : Tracks (Traced W) d₀ (d.createElement Word.lineBreak).2 :=
    h.create hW (.of_none rfl rfl) (by decide)
  obtain ⟨h₁, hmem⟩ := h.insertAfterNew hbreak
    (makes_addCopies h.wellFormed (.element ⟨Word.lineBreak, []⟩) nil)
    (fun node hnode => by
      obtain rfl : node = _ := by simpa using hnode
      rfl) hn
  generalize hd₁ : (d.createElement Word.lineBreak).2.insertAfter n d.freshId = d₁ at h₁ hmem
  obtain ⟨f, hf, htext⟩ := createTextElement_spec h₁.wellFormed line
  rw [insertLine_eq line hd₁]
  exact h₁.insertAfterNew (h₁.createTextElement hW line) htext
    (fun node hnode => Label.isNamed_fragment_of_text (roots_textElement hf node hnode)) hmem

theorem Tracks.insertLines (h : Tracks (Traced W) d₀ d) (hW : W.Old d₀.fresh) (hn : n ∈ d.ids)
    (lines : List String) :
    Tracks (Traced W) d₀ (lines.foldl (fun (cursor, d) line => d.insertLine cursor line) (n, d)).2 := by
  induction lines generalizing d n with
  | nil => exact h
  | cons line lines ih =>
    have hline := h.insertLine hW hn line
    rw [foldl_insertLine_cons]
    generalize d.insertLine n line = result at hline ⊢
    obtain ⟨cursor, d'⟩ := result
    exact ih hline.1 hline.2

/-- Writing a value into a text that is no directive. -/
theorem Tracks.writeValue (h : Tracks (Traced W) d₀ d) (hW : W.Old d₀.fresh)
    (hn : d.isNamed n Word.text = true) (hd : ¬ W.directive n) (hkey : ¬ W.keys Word.markAttribute)
    (value : String) : Tracks (Traced W) d₀ (d.writeValue n value) := by
  have hmem := h.wellFormed.mem_ids_of_isNamed hn
  have h₁ : Tracks (Traced W) d₀ (d.eraseAttribute n Word.markAttribute) := h.eraseMark hd hkey
  have hg : d.Gains (d.eraseAttribute n Word.markAttribute) :=
    (Gains.refl h.wellFormed).relabel n fun _ _ => Label.name?_eraseAttribute
  have hn₁ : (d.eraseAttribute n Word.markAttribute).isNamed n Word.text = true := by
    rwa [hg.isNamed_eq hmem]
  unfold Document.writeValue
  dsimp only
  split
  · exact h₁.writeText hW hn₁ ""
  · next first others _ =>
    have h₂ := h₁.writeText hW hn₁ first
    have hg₁ := ((Tracks.refl h₁.wellFormed h₁.each).writeText
      (hW.mono h₁.gains.grows.fresh_le) hn₁ first).gains
    exact h₂.insertLines hW (hg₁.grows.mem_ids n (hg.grows.mem_ids n hmem)) others

/-! ## Taking texts out -/

theorem Tracks.detachFromRun (h : Tracks (Traced W) d₀ d) (n : NodeId) :
    Tracks (Traced W) d₀ (d.detachFromRun n) := by
  rcases detachFromRun_cases d n with he | ⟨run, -, he⟩ <;> rw [he]
  · exact h.detach (permits_traced W) n
  · exact (h.detach (permits_traced W) n).detach (permits_traced W) run

theorem Tracks.dropFront (h : Tracks (Traced W) d₀ d) (hW : W.Old d₀.fresh)
    (hn : d.isNamed n Word.text = true) (count : Nat) :
    Tracks (Traced W) d₀ (FlatText.dropFront d n count) := by
  unfold FlatText.dropFront
  dsimp only
  split
  · exact h.detachFromRun n
  · exact h.setText hW hn _

end Writing

end Xml.Document

/-! ## Only taking nodes out -/

/-- Whether no node has been made between `d` and `d'`. -/
structure Drops (W : Watch) (d d' : Document) : Prop where
  tracks : Document.Tracks (Traced W) d d'
  fresh_eq : d'.fresh = d.fresh

namespace Drops

variable {W : Watch} {d d' d'' : Document}

theorem refl (wf : d.WellFormed) (h : Each (Traced W) d.trees) : Drops W d d :=
  ⟨.refl wf h, rfl⟩

theorem trans (h : Drops W d d') (h' : Drops W d' d'') : Drops W d d'' :=
  ⟨h.tracks.trans h'.tracks, h'.fresh_eq.trans h.fresh_eq⟩

theorem detach (wf : d.WellFormed) (h : Each (Traced W) d.trees) (n : NodeId) : Drops W d (d.detach n) :=
  ⟨(Document.Tracks.refl wf h).detach (permits_traced W) n, wf.fresh_detach n⟩

theorem detachFromRun (wf : d.WellFormed) (h : Each (Traced W) d.trees) (n : NodeId) :
    Drops W d (d.detachFromRun n) := by
  have hn := detach wf h n
  rcases detachFromRun_cases d n with he | ⟨run, -, he⟩ <;> rw [he]
  · exact hn
  · exact hn.trans (detach hn.tracks.wellFormed hn.tracks.each run)

/-- Taking out nodes one after another. -/
theorem foldl {f : Document → NodeId → Document}
    (hf : ∀ (d : Document) n, d.WellFormed → Each (Traced W) d.trees → Drops W d (f d n))
    (wf : d.WellFormed) (h : Each (Traced W) d.trees) (ns : List NodeId) : Drops W d (ns.foldl f d) := by
  induction ns generalizing d with
  | nil => exact refl wf h
  | cons n ns ih =>
    have hn := hf d n wf h
    exact hn.trans (ih hn.tracks.wellFormed hn.tracks.each)

end Drops

end WordTemplate
