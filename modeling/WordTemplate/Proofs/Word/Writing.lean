import WordTemplate.Proofs.Word.Sign
import WordTemplate.Proofs.Xml.Scope
import WordTemplate.Word.Text

/-!
# Writing texts

What it does to a scope to write into a text element, and to write a value of several lines: the
element gets the first line and loses its mark, and the others come behind it.

* `writeText_spec`, `writeValue_spec`: the trees of the scope afterwards.
* `signs_lineForest`: the texts that lines show.
-/

namespace WordTemplate

open Xml Forest

/-! ## What is written -/

/-- The children of an element in which only `content` stands. -/
def textChildren (content : String) : Forest Label :=
  if content.isEmpty then nil else tree (.text content) nil

@[simp] theorem innerText_textChildren (content : String) :
    innerText (textChildren content) = content := by
  unfold textChildren
  split
  · next h => simpa [innerText, String.isEmpty_iff] using h.symm
  · simp [innerText, tree]

/-- A new text element with this content. -/
def textElement (content : String) : Forest Label :=
  tree ((Label.element ⟨Word.text, []⟩).setAttribute Word.spaceAttribute "preserve")
    (textChildren content)

/-- Lines behind a text, each with a break in front. -/
def lineForest (lines : List String) : Forest Label :=
  lines.foldr (fun line rest => tree (.element ⟨Word.lineBreak, []⟩) nil ++ (textElement line ++ rest))
    nil

/-- The label of a text element with this label after a value was written into it. -/
def writtenLabel (label : Label) : Label :=
  (label.eraseAttribute Word.markAttribute).setAttribute Word.spaceAttribute "preserve"

theorem valueLines_ne_nil (value : String) : Word.valueLines value ≠ [] := by
  simp [Word.valueLines, Text.pieces_ne_nil]

namespace Xml.Document

variable {d₀ d : Document} {scope n : NodeId} {up : List (Frame Node)} {fr : Frame Node}
  {l cs r : Forest Node} {node : Node}

/-! ## Writing into one element -/

theorem setText_spec (h : d₀.Within d scope) (wf₀ : d₀.WellFormed) (hs : scope ∈ d₀.ids)
    (ht : d.treeAt scope = wrap up (l ++ cons node cs r)) (hl : node.label.isElement = true)
    (content : String) :
    ∃ cs', labels cs' = textChildren content ∧ d₀.Within (d.setText node.id content) scope ∧
      (d.setText node.id content).treeAt scope = wrap up (l ++ cons node cs' r) ∧
      ∀ n ∈ d₀.ids, d.parent? n = none → (d.setText node.id content).parent? n = none := by
  have wf := h.grows.wellFormed
  have hmem := mem_of_spot ht
  have hlabel : d.label? node.id = some node.label := by
    rw [label?, wf.treeAt_of_spot ht]
    rfl
  have hempty := treeAt_takeChildren_spot wf ht
  have hw := h.takeChildren wf₀ hmem
  have hset : d.setText node.id content =
      if content.isEmpty then (d.takeChildren node.id).2
      else ((d.takeChildren node.id).2.createText content).2.append node.id
        ((d.takeChildren node.id).2.createText content).1 := by
    rw [setText, hlabel]
    cases hn : node.label with
    | text => simp [hn, Label.isElement] at hl
    | element => rfl
  rw [hset]
  split
  · next he =>
    refine ⟨nil, by simp [textChildren, he], hw, hempty, fun n hn hp => ?_⟩
    exact wf.parent?_takeChildren hp
  · next he =>
    have wf₁ := hw.grows.wellFormed
    have hmakes := makes_addCopies wf₁ (.text content) nil
    obtain ⟨hw₁, ht₁⟩ := hmakes.append_spec hw wf₀ hs hempty
    refine ⟨_, ?_, hw₁, ht₁, fun n hn hp => ?_⟩
    · simp [textChildren, he]
    · have hn₁ := hw.grows.mem_ids n hn
      refine hmakes.extends_eq.grows.wellFormed.parent?_append
        (wf₁.parent?_addCopies (wf.parent?_takeChildren hp) hn₁ _)
        (hmakes.receives wf₁ (wf₁.mem_ids_of_mem_treeAt (mem_of_spot hempty))) ?_
      rintro rfl
      exact hmakes.not_mem wf₁ hn₁ (List.mem_cons_self ..)

theorem writeText_spec (h : d₀.Within d scope) (wf₀ : d₀.WellFormed) (hs : scope ∈ d₀.ids)
    (ht : d.treeAt scope = wrap up (l ++ cons node cs r)) (hl : node.label.isElement = true)
    (content : String) :
    ∃ cs', labels cs' = textChildren content ∧ d₀.Within (d.writeText node.id content) scope ∧
      (d.writeText node.id content).treeAt scope =
        wrap up (l ++ cons ⟨node.id, node.label.setAttribute Word.spaceAttribute "preserve"⟩ cs' r) ∧
      ∀ n ∈ d₀.ids, d.parent? n = none → (d.writeText node.id content).parent? n = none := by
  have wf := h.grows.wellFormed
  obtain ⟨cs', hcs', hw, ht', hp'⟩ := setText_spec
    (h.relabel wf₀ (mem_of_spot ht) (Label.setAttribute Word.spaceAttribute "preserve")) wf₀ hs
    (treeAt_relabel_spot wf ht (Label.setAttribute Word.spaceAttribute "preserve")) (by simpa using hl)
    content
  exact ⟨cs', hcs', hw, ht', fun n hn hp => hp' n hn (wf.parent?_relabel hp _)⟩

/-- A new text element has its content. -/
theorem createTextElement_spec (wf : d.WellFormed) (content : String) :
    ∃ f, labels f = textElement content ∧
      d.Makes (d.createTextElement content).2 (d.createTextElement content).1 f := by
  have hmakes := makes_addCopies wf (.element ⟨Word.text, []⟩) nil
  have wf₁ := hmakes.extends_eq.grows.wellFormed
  obtain ⟨cs', hcs', hw, ht', hp'⟩ := writeText_spec (l := nil) (r := nil)
    (Within.refl wf₁) wf₁ hmakes.mem_ids (eq_wrap_nil hmakes.treeAt_eq) rfl content
  have hids : ∀ i ∈ Xml.ids ((d.addCopies (tree (.element ⟨Word.text, []⟩) nil)).treeAt d.freshId),
      d.fresh ≤ i.number := by
    rw [hmakes.treeAt_eq]
    exact hmakes.fresh_le
  refine ⟨_, ?_, hmakes.extends_eq.within wf hids hw, hw.grows.mem_ids _ hmakes.mem_ids,
    hp' _ hmakes.mem_ids hmakes.parent?_eq, ht', fun i hi => ?_⟩
  · simp only [wrap, nil_append, labels_cons, hcs', labels_nil]
    rfl
  · rw [← ht'] at hi
    rcases hw.mem_or_fresh i hi with hi | hi
    · exact hids i hi
    · exact Nat.le_trans hmakes.extends_eq.grows.fresh_le hi

/-! ## Writing values -/

/-- The text of a line is put behind the break. -/
theorem insertLine_eq {d₁ : Document} (line : String)
    (h : (d.addCopies (tree (.element ⟨Word.lineBreak, []⟩) nil)).insertAfter n d.freshId = d₁) :
    d.insertLine n line = ((d₁.createTextElement line).1,
      (d₁.createTextElement line).2.insertAfter d.freshId (d₁.createTextElement line).1) := by
  rw [← h]
  rfl

theorem insertLine_spec (h : d₀.Within d scope) (wf₀ : d₀.WellFormed) (hs : scope ∈ d₀.ids)
    (ht : d.treeAt scope = wrap (fr :: up) (l ++ cons node cs r)) (line : String) :
    ∃ a as b bs, labels (cons a as (tree b bs)) =
        tree (.element ⟨Word.lineBreak, []⟩) nil ++ textElement line ∧
      (d.insertLine node.id line).1 = b.id ∧ d₀.Within (d.insertLine node.id line).2 scope ∧
      (d.insertLine node.id line).2.treeAt scope =
        wrap (fr :: up) (l ++ cons node cs (cons a as (cons b bs r))) := by
  have hmakes := makes_addCopies h.grows.wellFormed (.element ⟨Word.lineBreak, []⟩) nil
  obtain ⟨hw, ht₁⟩ := hmakes.insertAfter_spec h wf₀ hs ht
  generalize hd₁ : (d.addCopies (tree (.element ⟨Word.lineBreak, []⟩) nil)).insertAfter node.id
    d.freshId = d₁ at hw ht₁
  obtain ⟨f, hf, hmakes₁⟩ := createTextElement_spec hw.grows.wellFormed line
  have hsplit : l ++ cons node cs (tree ⟨d.freshId, .element ⟨Word.lineBreak, []⟩⟩
      (identify (d.fresh + 1) nil) ++ r) = (l ++ tree node cs) ++
        cons ⟨d.freshId, .element ⟨Word.lineBreak, []⟩⟩ nil r := by
    rw [append_assoc]
    rfl
  rw [hsplit] at ht₁
  obtain ⟨hw₂, ht₂⟩ := hmakes₁.insertAfter_spec hw wf₀ hs ht₁
  obtain ⟨b, bs, hb, hfb⟩ := hmakes₁.extends_eq.grows.wellFormed.exists_treeAt hmakes₁.mem_ids
  rw [hmakes₁.treeAt_eq] at hfb
  subst hfb
  rw [insertLine_eq line hd₁]
  refine ⟨⟨d.freshId, .element ⟨Word.lineBreak, []⟩⟩, nil, b, bs, ?_, hb.symm, hw₂, ?_⟩
  · rw [labels_cons, hf]
    rfl
  · refine Eq.trans ht₂ ?_
    rw [append_assoc]
    rfl

theorem foldl_insertLine_cons (d : Document) (n : NodeId) (line : String) (lines : List String) :
    (line :: lines).foldl (fun (cursor, d) line => d.insertLine cursor line) (n, d) =
      lines.foldl (fun (cursor, d) line => d.insertLine cursor line) (d.insertLine n line) :=
  rfl

theorem insertLines_spec (h : d₀.Within d scope) (wf₀ : d₀.WellFormed) (hs : scope ∈ d₀.ids)
    (lines : List String) (ht : d.treeAt scope = wrap (fr :: up) (l ++ cons node cs r)) :
    ∃ f, labels f = lineForest lines ∧
      d₀.Within (lines.foldl (fun (cursor, d) line => d.insertLine cursor line) (node.id, d)).2
        scope ∧
      (lines.foldl (fun (cursor, d) line => d.insertLine cursor line) (node.id, d)).2.treeAt scope =
        wrap (fr :: up) (l ++ cons node cs (f ++ r)) := by
  induction lines generalizing d l node cs with
  | nil => exact ⟨nil, rfl, h, ht⟩
  | cons line lines ih =>
    obtain ⟨a, as, b, bs, hab, hb, hw, ht₁⟩ := insertLine_spec h wf₀ hs ht line
    have hsplit : l ++ cons node cs (cons a as (cons b bs r)) =
        (l ++ cons node cs (tree a as)) ++ cons b bs r := by
      rw [append_assoc]
      rfl
    rw [hsplit] at ht₁
    rw [foldl_insertLine_cons]
    generalize d.insertLine node.id line = result at hb hw ht₁ ⊢
    obtain ⟨cursor, d'⟩ := result
    obtain rfl : cursor = b.id := hb
    obtain ⟨f, hf, hw', ht'⟩ := ih hw ht₁
    refine ⟨cons a as (tree b bs) ++ f, ?_, hw', ?_⟩
    · rw [labels_append, hab, hf, append_assoc]
      rfl
    · refine ht'.trans ?_
      rw [append_assoc]
      rfl

/-- Writing a value puts its first line into the text element and the others behind it. -/
theorem writeValue_spec (h : d₀.Within d scope) (wf₀ : d₀.WellFormed) (hs : scope ∈ d₀.ids)
    (ht : d.treeAt scope = wrap (fr :: up) (l ++ cons node cs r)) (hl : node.label.isElement = true)
    (value : String) :
    ∃ first others cs' f, Word.valueLines value = first :: others ∧
      labels cs' = textChildren first ∧ labels f = lineForest others ∧
      d₀.Within (d.writeValue node.id value) scope ∧
      (d.writeValue node.id value).treeAt scope =
        wrap (fr :: up) (l ++ (cons ⟨node.id, writtenLabel node.label⟩ cs' f ++ r)) := by
  have wf := h.grows.wellFormed
  have hw := h.relabel wf₀ (mem_of_spot ht) (Label.eraseAttribute Word.markAttribute)
  have ht₁ := treeAt_relabel_spot wf ht (Label.eraseAttribute Word.markAttribute)
  have hl₁ : (node.label.eraseAttribute Word.markAttribute).isElement = true := by
    cases hn : node.label with
    | text => simp [hn, Label.isElement] at hl
    | element => rfl
  unfold writeValue
  cases hlines : Word.valueLines value with
  | nil => exact absurd hlines (valueLines_ne_nil value)
  | cons first others =>
    obtain ⟨cs', hcs', hw', ht', -⟩ := writeText_spec hw wf₀ hs ht₁ hl₁ first
    obtain ⟨f, hf, hw₂, ht₂⟩ := insertLines_spec hw' wf₀ hs others ht'
    exact ⟨first, others, cs', f, rfl, hcs', hf, hw₂, ht₂⟩

end Xml.Document

/-! ## What a written value shows -/

theorem lookup_eraseAttribute_ne {key other : String} (h : other ≠ key)
    (attributes : List Attribute) :
    (Xml.eraseAttribute key attributes).lookup other = attributes.lookup other := by
  induction attributes with
  | nil => rfl
  | cons a rest ih =>
    obtain ⟨k, v⟩ := a
    rw [Xml.eraseAttribute] at ih ⊢
    rw [List.eraseP_cons]
    by_cases hk : k = key
    · have hb : (other == k) = false := by simpa [hk] using h
      simp [hk, List.lookup_cons, hk ▸ hb]
    · have hk' : (k == key) = false := by simpa using hk
      simp only [hk', cond_false, List.lookup_cons, ih]

namespace Xml.Label

variable {label : Label} {key : String}

@[simp] theorem name?_eraseAttribute : (label.eraseAttribute key).name? = label.name? := by
  cases label <;> rfl

@[simp] theorem isNamed_eraseAttribute (name : String) :
    (label.eraseAttribute key).isNamed name = label.isNamed name := by
  simp [isNamed]

@[simp] theorem isElement_eraseAttribute :
    (label.eraseAttribute key).isElement = label.isElement := by
  cases label <;> rfl

@[simp] theorem isProperty_eraseAttribute :
    (label.eraseAttribute key).isProperty = label.isProperty := by
  cases label <;> rfl

@[simp] theorem isMute_eraseAttribute (mute : List String) :
    (label.eraseAttribute key).isMute mute = label.isMute mute := by
  simp [isMute]

theorem attribute?_eraseAttribute_ne {other : String} (h : other ≠ key) :
    (label.eraseAttribute key).attribute? other = label.attribute? other := by
  cases label with
  | element tag => exact lookup_eraseAttribute_ne h _
  | text content => rfl

/-- Erasing a mark leaves the others. -/
theorem marks_eraseAttribute : (label.eraseAttribute Word.markAttribute).marks = label.marks.tail := by
  cases label with
  | text content => rfl
  | element tag =>
    rw [eraseAttribute, marks, marks, Xml.eraseAttribute]
    induction tag.attributes with
    | nil => rfl
    | cons a rest ih =>
      rw [List.eraseP_cons]
      by_cases ha : (a.1 == Word.markAttribute) = true
      · simp [ha]
      · rw [Bool.not_eq_true] at ha
        simpa [ha] using ih

@[simp] theorem marks_setAttribute_space (value : String) :
    (label.setAttribute Word.spaceAttribute value).marks = label.marks :=
  marks_setAttribute_ne (by decide)

theorem marks_eraseAttribute_ne (h : Word.markAttribute ≠ key) :
    (label.eraseAttribute key).marks = label.marks := by
  cases label with
  | text content => rfl
  | element tag =>
    rw [eraseAttribute, marks, marks, Xml.eraseAttribute]
    induction tag.attributes with
    | nil => rfl
    | cons a rest ih =>
      rw [List.eraseP_cons]
      by_cases ha : (a.1 == key) = true
      · have hne : (a.1 == Word.markAttribute) = false := by simpa [beq_iff_eq.mp ha] using Ne.symm h
        simp [ha, hne]
      · rw [Bool.not_eq_true] at ha
        simp [ha, List.filter_cons, apply_ite (List.map Prod.snd), ih]

@[simp] theorem isAnchor_setAttribute_space (value : String) :
    (label.setAttribute Word.spaceAttribute value).isAnchor = label.isAnchor := by
  rw [isAnchor, attribute?_setAttribute_ne (by decide), isAnchor]

@[simp] theorem isAnchor_eraseAttribute_mark :
    (label.eraseAttribute Word.markAttribute).isAnchor = label.isAnchor := by
  rw [isAnchor, attribute?_eraseAttribute_ne (by decide), isAnchor]

end Xml.Label

section WrittenLabel

variable {label : Label}

@[simp] theorem isAnchor_writtenLabel : (writtenLabel label).isAnchor = label.isAnchor := by
  simp [writtenLabel]

@[simp] theorem isNamed_writtenLabel (name : String) :
    (writtenLabel label).isNamed name = label.isNamed name := by
  simp [writtenLabel]

@[simp] theorem isMute_writtenLabel (mute : List String) :
    (writtenLabel label).isMute mute = label.isMute mute := by
  simp [writtenLabel]

@[simp] theorem marks_writtenLabel : (writtenLabel label).marks = label.marks.tail := by
  simp [writtenLabel, Label.marks_eraseAttribute]

end WrittenLabel

@[simp] theorem quiet_textChildren (content : String) : Quiet (textChildren content) := by
  unfold textChildren
  split
  · exact quiet_nil
  · simp only [quiet_tree, quiet_nil, and_true]
    rfl

/-- What a text element shows that is neither an anchor nor marked. -/
theorem signs_text {label : Label} (hn : label.isNamed Word.text = true)
    (ha : label.isAnchor = false) (content : String) :
    signs (tree label (textChildren content)) = [.text label.marks content] := by
  rw [signs_tree_of_isLandmark _ (by simp [Label.isLandmark, hn]), Sign.of, ha, innerText_textChildren]
  rfl

@[simp] theorem signs_textElement (content : String) :
    signs (textElement content) = [.text [] content] :=
  signs_text (by rw [Label.isNamed_setAttribute]; decide)
    (by rw [Label.isAnchor_setAttribute_space]; decide) content

@[simp] theorem signs_lineForest (lines : List String) :
    signs (lineForest lines) = lines.map (.text []) := by
  induction lines with
  | nil => rfl
  | cons line lines ih =>
    have hbr : signs (tree (.element ⟨Word.lineBreak, []⟩) nil) = [] :=
      signs_tree nil (by decide)
    rw [lineForest, List.foldr_cons] at *
    rw [signs_append, signs_append, hbr, signs_textElement, ih]
    rfl

theorem onlyText_textChildren (content : String) : OnlyText (textChildren content) := by
  intro l hl
  unfold textChildren at hl
  split at hl
  · simp [toList] at hl
  · obtain rfl : l = .text content := by simpa [tree, toList] using hl
    rfl

theorem sound_text {mute : List String} {label : Label} (ha : label.isAnchor = false)
    (hm : label.isMute mute = false) (content : String) : Sound mute (tree label (textChildren content)) := by
  refine ⟨fun _ => ⟨quiet_textChildren content, by rw [ha]; rfl, fun _ => onlyText_textChildren content⟩,
    fun h => ?_, .of_quiet (quiet_textChildren content), trivial⟩
  rw [hm] at h
  cases h

theorem sound_textElement {mute : List String} (hmute : Word.text ∉ mute) (content : String) :
    Sound mute (textElement content) := by
  refine sound_text (by rw [Label.isAnchor_setAttribute_space]; decide) ?_ content
  have hp : Xml.isProperty Word.text = false := by decide
  rw [Label.isMute_setAttribute]
  simp only [Label.isMute, Label.isElement, Label.isProperty, Label.isNamed, Label.name?, hp,
    Bool.not_true, Bool.false_or, List.any_eq_false, beq_iff_eq, Option.some.injEq]
  rintro name hname rfl
  exact hmute hname

theorem sound_lineForest {mute : List String} (hmute : Word.text ∉ mute) (lines : List String) :
    Sound mute (lineForest lines) := by
  induction lines with
  | nil => trivial
  | cons line lines ih =>
    rw [lineForest, List.foldr_cons] at *
    rw [sound_append, sound_append]
    have hbr : Quiet (tree (.element ⟨Word.lineBreak, []⟩) nil) := by
      simp only [quiet_tree, quiet_nil, and_true]
      decide
    exact ⟨.of_quiet hbr, sound_textElement hmute line, ih⟩

end WordTemplate
