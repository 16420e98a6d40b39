import WordTemplate.Proofs.Word.Paragraph
import WordTemplate.Proofs.Word.Writing

/-!
# Charts

A chart of a scope lists its landmarks. What is done to the texts of a scope is a change of the
chart: a text is rewritten, a new one comes before or after it, or it is taken out with the run it
was in.

* `setText_chart`, `writeMarked_spec`, `insertBefore_chart`, `insertAfter_chart`: the chart afterwards.
-/

namespace WordTemplate

open Xml Forest

/-- Whether the tree at `root` is sound, is no landmark, and has the landmarks `ls`. -/
structure Charted (d : Document) (root : NodeId) (mute : List String) (ls : List Landmark) :
    Prop where
  wellFormed : d.WellFormed
  exists_eq : ∃ node cs, d.treeAt root = tree node cs ∧ node.label.isLandmark = false
  sound : Sound mute (labels (d.treeAt root))
  landmarks_eq : landmarks (d.treeAt root) = ls

/-- Where in the scope a landmark stands. -/
structure Stands (d : Document) (root : NodeId) (mute : List String) (u : List Landmark)
    (x : Landmark) (v : List Landmark) (fr : Frame Node) (up : List (Frame Node))
    (l : Forest Node) (a : Node) (as r : Forest Node) : Prop where
  treeAt_eq : d.treeAt root = wrap (fr :: up) (l ++ cons a as r)
  isOpen : ∀ fr' ∈ fr :: up, fr'.value.label.isLandmark = false ∧ fr'.value.label.isMute mute = false
  isLandmark : a.label.isLandmark = true
  eq : x = ⟨a.id, signOf a.label as, crumbs (fr :: up)⟩
  before_eq : u = landmarksBefore (fr :: up) ++ (landmarks l).map (·.below (crumbs (fr :: up)))
  after_eq : v = (landmarks r).map (·.below (crumbs (fr :: up))) ++ landmarksAfter (fr :: up)

section Charted

variable {d₀ d d' : Document} {root : NodeId} {mute : List String} {ls u v : List Landmark}
  {x : Landmark} {fr : Frame Node} {up : List (Frame Node)} {l as r g : Forest Node} {a : Node}

theorem Charted.scoped (h : Charted d root mute ls) : Scoped d root mute (ls.map Landmark.sign) :=
  ⟨h.wellFormed, h.exists_eq, h.sound, by rw [signs_labels, h.landmarks_eq]⟩

theorem Scoped.charted {ss : List Sign} (h : Scoped d root mute ss) :
    Charted d root mute (landmarks (d.treeAt root)) :=
  ⟨h.wellFormed, h.exists_eq, h.sound, rfl⟩

theorem Scoped.map_sign_landmarks {ss : List Sign} (h : Scoped d root mute ss) :
    (landmarks (d.treeAt root)).map Landmark.sign = ss := by
  rw [← signs_labels, h.signs_eq]

theorem Charted.mem_ids (h : Charted d root mute ls) : root ∈ d.ids :=
  h.scoped.mem_ids

theorem Charted.exists_stands (h : Charted d root mute (u ++ x :: v)) :
    ∃ fr up l a as r, Stands d root mute u x v fr up l a as r := by
  obtain ⟨up, l, a, as, r, hf, hup, hland, hx, hu, hv⟩ := exists_landmark_spot h.landmarks_eq
  obtain ⟨fr, up, rfl⟩ := h.scoped.exists_frame hf hland
  refine ⟨fr, up, l, a, as, r, hf, (hf ▸ h.sound).open_of_wrap ?_, hland, hx, hu, hv⟩
  rw [labels_append, labels_cons, quiet_append, quiet_cons, hland]
  simp

theorem Stands.sound (h : Stands d root mute u x v fr up l a as r)
    (hs : Sound mute (labels (d.treeAt root))) :
    Sound mute (labels l) ∧ Sound mute (labels (tree a as)) ∧ Sound mute (labels r) := by
  have := (h.treeAt_eq ▸ hs).of_wrap
  rw [labels_append, labels_cons, sound_append, sound_cons] at this
  exact this

/-- The chart after other trees have been put in the place of a landmark. -/
theorem Charted.replace (h : Charted d root mute (u ++ x :: v))
    (hx : Stands d root mute u x v fr up l a as r) (wf' : d'.WellFormed)
    (hg : d'.treeAt root = wrap (fr :: up) (l ++ (g ++ r))) (hs : Sound mute (labels g)) :
    Charted d' root mute (u ++ ((landmarks g).map (·.below (crumbs (fr :: up))) ++ v)) where
  wellFormed := wf'
  exists_eq := by
    obtain ⟨node, cs, htree, hnode⟩ := h.exists_eq
    obtain ⟨cs', hcs'⟩ := exists_tree_wrap (hx.treeAt_eq.symm.trans htree) (l ++ (g ++ r))
    exact ⟨node, cs', hg.trans hcs', hnode⟩
  sound := by
    have hin := hx.sound h.sound
    rw [hg]
    refine (hx.treeAt_eq ▸ h.sound).wrap_of_open hx.isOpen ?_
    rw [labels_append, labels_append, sound_append, sound_append]
    exact ⟨hin.1, hs, hin.2.2⟩
  landmarks_eq := by
    rw [hg, landmarks_wrap fun fr' hfr => (hx.isOpen fr' hfr).1, hx.before_eq, hx.after_eq]
    simp

/-- A text of a chart is an element. -/
theorem Stands.isElement (h : Stands d root mute u x v fr up l a as r)
    (hs : Sound mute (labels (d.treeAt root))) :
    a.label.isElement = true ∧ a.label.isMute mute = false := by
  have hin := (h.sound hs).2.1
  have hm : a.label.isMute mute = false := by
    rw [← Bool.not_eq_true]
    intro hm
    have := (hin.2.1 hm).1
    rw [h.isLandmark] at this
    cases this
  refine ⟨?_, hm⟩
  rw [Label.isMute, Bool.or_eq_false_iff, Bool.or_eq_false_iff] at hm
  simpa using hm.1.1

/-- A landmark that shows a text is a text element. -/
theorem Stands.text (h : Stands d root mute u x v fr up l a as r) {marks : List String} {s : String}
    (hs : x.sign = .text marks s) : a.label.isAnchor = false ∧ a.label.isNamed Word.text = true ∧
      a.label.marks = marks ∧ innerText (labels as) = s := by
  have hx : signOf a.label as = .text marks s := by
    rw [← hs, h.eq]
  unfold signOf at hx
  split at hx
  · cases hx
  · next ha =>
    rw [Bool.not_eq_true] at ha
    have hl := h.isLandmark
    rw [Label.isLandmark, ha, Bool.false_or] at hl
    obtain ⟨hm, hi⟩ := Sign.text.inj hx
    exact ⟨ha, hl, hm, hi⟩

/-- The text of a landmark in the document. -/
theorem Charted.innerText_eq (h : Charted d root mute (u ++ x :: v)) {marks : List String}
    {s : String} (hx : x.sign = .text marks s) : d.innerText x.node = s := by
  obtain ⟨fr, up, l, a, as, r, hat⟩ := h.exists_stands
  obtain ⟨-, -, -, hinner⟩ := hat.text hx
  obtain ⟨he, -⟩ := hat.isElement h.sound
  rw [hat.eq, Document.innerText, Document.labelsAt, h.wellFormed.treeAt_of_spot hat.treeAt_eq,
    labels_tree]
  cases hl : a.label with
  | text => simp [hl, Label.isElement] at he
  | element tag => simp [tree, innerText, hinner]

end Charted

/-! ## Rewriting a text -/

/-- What a text element with this content shows. -/
theorem landmarks_text {m : List String} {a : Node} {cs : Forest Node} {s : String}
    (hn : a.label.isNamed Word.text = true) (ha : a.label.isAnchor = false)
    (hm : a.label.isMute m = false) (hcs : labels cs = textChildren s) :
    landmarks (tree a cs) = [⟨a.id, .text a.label.marks s, []⟩] ∧ Sound m (labels (tree a cs)) := by
  refine ⟨?_, ?_⟩
  · rw [landmarks_tree_of_isLandmark cs (by simp [Label.isLandmark, hn]), signOf, ha, hcs,
      innerText_textChildren]
    rfl
  · rw [labels_tree, hcs]
    exact sound_text ha hm s

/-- A mark takes the place of the first one. -/
theorem marks_setAttribute_mark {label : Label} (hl : label.isElement = true) (name : String) :
    (label.setAttribute Word.markAttribute name).marks = name :: label.marks.tail := by
  cases label with
  | text content => cases hl
  | element tag =>
    rw [Label.setAttribute, Label.marks, Label.marks]
    change ((putAttribute Word.markAttribute name tag.attributes).filter
      (·.1 == Word.markAttribute)).map Prod.snd = _
    induction tag.attributes with
    | nil => simp [putAttribute]
    | cons a rest ih =>
      obtain ⟨k, v⟩ := a
      by_cases hk : k = Word.markAttribute
      · simp [putAttribute, hk]
      · simpa [putAttribute, hk] using ih

theorem isAnchor_setAttribute_mark {label : Label} (name : String) :
    (label.setAttribute Word.markAttribute name).isAnchor = label.isAnchor := by
  rw [Label.isAnchor, Label.attribute?_setAttribute_ne (by decide), Label.isAnchor]

section Texts

variable {d₀ d : Document} {root : NodeId} {m : List String} {u v : List Landmark} {x : Landmark}
  {marks : List String} {s : String}

/-- Writing other content into a text. -/
theorem setText_chart (h : d₀.Within d root) (wf₀ : d₀.WellFormed) (hs : root ∈ d₀.ids)
    (hC : Charted d root mute (u ++ x :: v)) (hx : x.sign = .text marks s) (content : String) :
    d₀.Within (d.setText x.node content) root ∧
      Charted (d.setText x.node content) root mute
        (u ++ ⟨x.node, .text marks content, x.path⟩ :: v) := by
  obtain ⟨fr, up, l, a, as, r, hat⟩ := hC.exists_stands
  obtain ⟨ha, hn, rfl, -⟩ := hat.text hx
  obtain ⟨he, hm⟩ := hat.isElement hC.sound
  obtain ⟨cs, hcs, hw, ht, -⟩ := Document.setText_spec h wf₀ hs hat.treeAt_eq he content
  obtain ⟨hl, hsound⟩ := landmarks_text hn ha hm hcs
  have := hC.replace hat hw.grows.wellFormed (g := tree a cs) ht hsound
  rw [hl] at this
  rw [hat.eq]
  exact ⟨hw, by simpa [Landmark.below] using this⟩

/-- Writing content into a text and marking it. -/
theorem writeMarked_spec (h : d₀.Within d root) (wf₀ : d₀.WellFormed) (hs : root ∈ d₀.ids)
    (hC : Charted d root mute (u ++ x :: v)) (hx : x.sign = .text marks s) (content name : String) :
    d₀.Within ((d.writeText x.node content).setAttribute x.node Word.markAttribute name) root ∧
      Charted ((d.writeText x.node content).setAttribute x.node Word.markAttribute name) root mute
        (u ++ ⟨x.node, .text (name :: marks.tail) content, x.path⟩ :: v) := by
  obtain ⟨fr, up, l, a, as, r, hat⟩ := hC.exists_stands
  obtain ⟨ha, hn, rfl, -⟩ := hat.text hx
  obtain ⟨he, hm⟩ := hat.isElement hC.sound
  obtain ⟨cs, hcs, hw, ht, -⟩ := Document.writeText_spec h wf₀ hs hat.treeAt_eq he content
  have hw' := hw.relabel wf₀ (Document.mem_of_spot ht) (Label.setAttribute Word.markAttribute name)
  have ht' := Document.treeAt_relabel_spot hw.grows.wellFormed ht
    (Label.setAttribute Word.markAttribute name)
  obtain ⟨hl, hsound⟩ := landmarks_text (m := mute) (s := content)
    (a := ⟨a.id, (a.label.setAttribute Word.spaceAttribute "preserve").setAttribute
      Word.markAttribute name⟩) (by simpa using hn) (by simpa [isAnchor_setAttribute_mark] using ha)
    (by simpa using hm) hcs
  have := hC.replace hat hw'.grows.wellFormed (g := tree _ cs) ht' hsound
  rw [hl, marks_setAttribute_mark (by simpa using he), Label.marks_setAttribute_space] at this
  simp only [List.map_cons, List.map_nil, Landmark.below, List.nil_append, List.singleton_append]
    at this
  rw [hat.eq]
  exact ⟨hw', this⟩

/-- What a new text element shows. -/
theorem exists_textElement {mute : List String} (hmute : Word.text ∉ mute) {f : Forest Node}
    {n : NodeId} {d₁ : Document} (hf : labels f = textElement s) (hmakes : d.Makes d₁ n f) :
    landmarks f = [⟨n, .text [] s, []⟩] ∧ Sound mute (labels f) := by
  obtain ⟨b, bs, hb, hfb⟩ := hmakes.extends_eq.grows.wellFormed.exists_treeAt hmakes.mem_ids
  rw [hmakes.treeAt_eq] at hfb
  subst hfb
  have hsigns := signs_textElement s
  rw [← hf, signs_labels] at hsigns
  refine ⟨?_, by rw [hf]; exact sound_textElement hmute s⟩
  have hland : b.label.isLandmark = true := by
    have := (Forest.cons.inj hf).1
    rw [this]
    decide
  rw [landmarks_tree_of_isLandmark bs hland] at hsigns ⊢
  simp only [List.map_cons, List.map_nil, List.cons.injEq, and_true] at hsigns
  rw [hsigns, hb]

/-- A new text in front of another one. -/
theorem insertBefore_chart (h : d₀.Within d root) (wf₀ : d₀.WellFormed) (hs : root ∈ d₀.ids)
    (hmute : Word.text ∉ mute) (hC : Charted d root mute (u ++ x :: v)) (content : String) :
    d₀.Within ((d.createTextElement content).2.insertBefore x.node (d.createTextElement content).1)
        root ∧
      Charted ((d.createTextElement content).2.insertBefore x.node (d.createTextElement content).1)
        root mute (u ++ ⟨(d.createTextElement content).1, .text [] content, x.path⟩ :: x :: v) := by
  obtain ⟨fr, up, l, a, as, r, hat⟩ := hC.exists_stands
  obtain ⟨f, hf, hmakes⟩ := Document.createTextElement_spec h.grows.wellFormed content
  obtain ⟨hw, ht⟩ := hmakes.insertBefore_spec h wf₀ hs hat.treeAt_eq
  obtain ⟨hl, hsound⟩ := exists_textElement hmute hf hmakes
  have hsound' : Sound mute (labels (f ++ tree a as)) := by
    rw [labels_append, sound_append]
    exact ⟨hsound, (hat.sound hC.sound).2.1⟩
  have := hC.replace hat hw.grows.wellFormed (g := f ++ tree a as)
    (by rw [ht, append_assoc]; rfl) hsound'
  rw [landmarks_append, hl, landmarks_tree_of_isLandmark as hat.isLandmark] at this
  rw [hat.eq]
  exact ⟨hw, by simpa [Landmark.below] using this⟩

/-- A new text behind another one. -/
theorem insertAfter_chart (h : d₀.Within d root) (wf₀ : d₀.WellFormed) (hs : root ∈ d₀.ids)
    (hmute : Word.text ∉ mute) (hC : Charted d root mute (u ++ x :: v)) (content : String) :
    d₀.Within ((d.createTextElement content).2.insertAfter x.node (d.createTextElement content).1)
        root ∧
      Charted ((d.createTextElement content).2.insertAfter x.node (d.createTextElement content).1)
        root mute (u ++ x :: ⟨(d.createTextElement content).1, .text [] content, x.path⟩ :: v) := by
  obtain ⟨fr, up, l, a, as, r, hat⟩ := hC.exists_stands
  obtain ⟨f, hf, hmakes⟩ := Document.createTextElement_spec h.grows.wellFormed content
  obtain ⟨hw, ht⟩ := hmakes.insertAfter_spec h wf₀ hs hat.treeAt_eq
  obtain ⟨hl, hsound⟩ := exists_textElement hmute hf hmakes
  have hsound' : Sound mute (labels (tree a as ++ f)) := by
    rw [labels_append, sound_append]
    exact ⟨(hat.sound hC.sound).2.1, hsound⟩
  have := hC.replace hat hw.grows.wellFormed (g := tree a as ++ f)
    (by rw [ht]; rfl) hsound'
  rw [landmarks_append, hl, landmarks_tree_of_isLandmark as hat.isLandmark] at this
  rw [hat.eq]
  exact ⟨hw, by simpa [Landmark.below] using this⟩

end Texts

end WordTemplate
