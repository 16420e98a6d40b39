import WordTemplate.Proofs.Preparing

/-!
# Texts in order

In a scope where no text is in another one or in what is no content, such as formatting, whatever else
is there, the texts can be listed in document order. The list follows what is done to the texts, so
directives can be isolated in it.

* `exists_text_spot`: where a text of a forest stands.
* `Listed.ofDocument_eq`: the flattened text of a scope.
* `isolable_listed`: the list follows the document.
-/

namespace WordTemplate

open Xml Forest

/-! ## The texts of a forest -/

/-- Whether a label is one below which texts have no place: that of a text, or of what counts as no content,
such as formatting. -/
def Xml.Label.isClosed (l : Label) : Bool :=
  l.isNamed Word.text || !l.isContent

theorem Xml.Label.isContent_of_isNamed_text {l : Label} (h : l.isNamed Word.text = true) : l.isContent = true := by
  cases l with
  | text content => cases h
  | element tag =>
    have hname : tag.name = Word.text := by simpa [Label.isNamed, Label.name?] using h
    rw [Label.isContent, hname]
    decide

theorem isNamed_text_of_isClosed {l : Label} (h : l.isClosed = false) : l.isNamed Word.text = false := by
  rw [Label.isClosed, Bool.or_eq_false_iff] at h
  exact h.1

/-- The texts of a forest in document order, with their marks and contents. -/
def texts : Forest Node → List Landmark
  | .nil => []
  | .cons node cs rest =>
    (if node.label.isNamed Word.text then [⟨node.id, .text node.label.marks (innerText (labels cs)), []⟩]
      else texts cs) ++ texts rest

@[simp] theorem texts_nil : texts nil = [] := rfl

theorem texts_cons (node : Node) (cs rest : Forest Node) :
    texts (cons node cs rest) = texts (tree node cs) ++ texts rest := by
  simp [texts, tree]

theorem texts_tree_of_isNamed {node : Node} (cs : Forest Node) (h : node.label.isNamed Word.text = true) :
    texts (tree node cs) = [⟨node.id, .text node.label.marks (innerText (labels cs)), []⟩] := by
  simp [texts, tree, h]

theorem texts_tree {node : Node} (cs : Forest Node) (h : node.label.isNamed Word.text = false) :
    texts (tree node cs) = texts cs := by
  simp [texts, tree, h]

@[simp] theorem texts_append (f g : Forest Node) : texts (f ++ g) = texts f ++ texts g := by
  induction f with
  | nil => rfl
  | cons node cs rest _ ih => rw [cons_append, texts_cons, ih, texts_cons node cs rest, List.append_assoc]

theorem texts_eq_nil {f : Forest Node} (h : ∀ l ∈ (labels f).toList, l.isNamed Word.text = false) :
    texts f = [] := by
  induction f with
  | nil => rfl
  | cons node cs rest ihc ihr =>
    simp only [labels_cons, toList, List.mem_cons, List.mem_append] at h
    rw [texts_cons, texts_tree cs (h _ (.inl rfl)), ihc fun l hl => h l (.inr (.inl hl)),
      ihr fun l hl => h l (.inr (.inr hl)), List.append_nil]

/-- The nodes above a spot do not matter for the texts. -/
theorem texts_wrap_congr {up : List (Frame Node)} {f g : Forest Node}
    (hup : ∀ fr ∈ up, fr.value.label.isNamed Word.text = false) (h : texts f = texts g) :
    texts (wrap up f) = texts (wrap up g) := by
  induction up generalizing f g with
  | nil => exact h
  | cons fr up ih =>
    rw [List.forall_mem_cons] at hup
    refine ih hup.2 ?_
    rw [texts_append, texts_append, texts_cons, texts_cons _ g, texts_tree f hup.1, texts_tree g hup.1, h]

/-- Where a text of a forest stands. Other trees can take its place. -/
theorem exists_text_spot {f : Forest Node} {u v : List Landmark} {x : Landmark} (h : texts f = u ++ x :: v) :
    ∃ up l a as r, f = wrap up (l ++ cons a as r) ∧ (∀ fr ∈ up, fr.value.label.isNamed Word.text = false) ∧
      a.label.isNamed Word.text = true ∧ x = ⟨a.id, .text a.label.marks (innerText (labels as)), []⟩ ∧
      ∀ g, texts (wrap up (l ++ (g ++ r))) = u ++ (texts g ++ v) := by
  induction f generalizing u v x with
  | nil => simp at h
  | cons a as rest ihc ihr =>
    -- The text is behind the first tree.
    have hbehind : ∀ t, u = texts (tree a as) ++ t → texts rest = t ++ x :: v →
        ∃ up l b bs r, cons a as rest = wrap up (l ++ cons b bs r) ∧
          (∀ fr ∈ up, fr.value.label.isNamed Word.text = false) ∧ b.label.isNamed Word.text = true ∧
          x = ⟨b.id, .text b.label.marks (innerText (labels bs)), []⟩ ∧
          ∀ g, texts (wrap up (l ++ (g ++ r))) = u ++ (texts g ++ v) := by
      intro t hu ht
      obtain ⟨up, l, b, bs, r, rfl, hup, hb, hx, htexts⟩ := ihr ht
      obtain ⟨up', l', hwrap, hvalue⟩ := exists_wrap_cons a as up l
      refine ⟨up', l', b, bs, r, hwrap _, fun fr' hfr' => ?_, hb, hx, fun g => ?_⟩
      · obtain ⟨fr, hfr, he⟩ := hvalue fr' hfr'
        rw [he]
        exact hup fr hfr
      · rw [← hwrap, texts_cons, htexts, hu, List.append_assoc]
    rw [texts_cons] at h
    rcases List.append_eq_append_iff.mp h with ⟨t, hu, hv⟩ | ⟨t, ht, hw⟩
    · exact hbehind t hu hv
    · cases t with
      | nil => exact hbehind [] (by simpa using ht.symm) (by simpa using hw.symm)
      | cons y t =>
        obtain ⟨rfl, rfl⟩ := List.cons.inj hw
        by_cases ha : a.label.isNamed Word.text = true
        · rw [texts_tree_of_isNamed as ha] at ht
          obtain rfl : u = [] := by
            cases u with
            | nil => rfl
            | cons => simp at ht
          obtain ⟨rfl, rfl⟩ : _ = x ∧ [] = t := by simpa using ht
          exact ⟨[], nil, a, as, rest, rfl, by simp, ha, rfl, fun g => by simp [wrap]⟩
        · rw [Bool.not_eq_true] at ha
          rw [texts_tree as ha] at ht
          obtain ⟨up, l, b, bs, r, rfl, hup, hb, hx, htexts⟩ := ihc ht
          refine ⟨up ++ [⟨nil, a, rest⟩], l, b, bs, r, by rw [wrap_append]; rfl, fun fr hfr => ?_, hb, hx,
            fun g => ?_⟩
          · rcases List.mem_append.mp hfr with hfr | hfr
            · exact hup fr hfr
            · obtain rfl : fr = _ := by simpa using hfr
              exact ha
          · rw [wrap_append]
            simp only [wrap, nil_append]
            rw [texts_cons, texts_tree _ ha, htexts]
            simp

/-! ## Forests in which texts are outside -/

section Outside

variable {closed : Label → Bool} {up : List (Frame Node)} {f g : Forest Node}

/-- The nodes above a text are not closed. -/
theorem TextsOutside.open_of_wrap (h : TextsOutside closed (labels (wrap up f)))
    (hf : ∃ l ∈ (labels f).toList, l.isNamed Word.text = true) :
    ∀ fr ∈ up, closed fr.value.label = false := by
  induction up generalizing f with
  | nil => simp
  | cons fr up ih =>
    have hspot : TextsOutside closed (labels (fr.before ++ cons fr.value f fr.after)) :=
      TextsOutside.of_wrap h
    obtain ⟨l, hl, htext⟩ := hf
    rw [List.forall_mem_cons]
    refine ⟨?_, ih h ⟨l, ?_, htext⟩⟩
    · rw [labels_append, labels_cons, textsOutside_append] at hspot
      by_contra hclosed
      rw [hspot.2.1 (by simpa using hclosed) l hl] at htext
      cases htext
    · simp only [labels_append, labels_cons, toList_append, toList, List.mem_append, List.mem_cons]
      exact .inr (.inr (.inl hl))

/-- Other trees below nodes that are not closed. -/
theorem TextsOutside.wrap (h : TextsOutside closed (labels (wrap up f)))
    (hup : ∀ fr ∈ up, closed fr.value.label = false) (hg : TextsOutside closed (labels g)) :
    TextsOutside closed (labels (Forest.wrap up g)) := by
  induction up generalizing f g with
  | nil => exact hg
  | cons fr up ih =>
    rw [List.forall_mem_cons] at hup
    have hspot : TextsOutside closed (labels (fr.before ++ cons fr.value f fr.after)) :=
      TextsOutside.of_wrap h
    refine ih h hup.2 ?_
    rw [labels_append, labels_cons, textsOutside_append] at hspot ⊢
    exact ⟨hspot.1, by simp [hup.1], hg, hspot.2.2.2⟩

/-- The text elements of a forest are its texts. -/
theorem filter_isNamed_text (h : TextsOutside Label.isClosed (labels f)) :
    (f.toList.filter (·.label.isNamed Word.text)).map Node.id = (texts f).map Landmark.node := by
  induction f with
  | nil => rfl
  | cons node cs rest ihc ihr =>
    obtain ⟨hclosed, hcs, hrest⟩ := h
    rw [texts_cons, List.map_append, ← ihr hrest, toList, List.filter_cons, List.filter_append]
    by_cases hn : node.label.isNamed Word.text = true
    · have hnone : cs.toList.filter (·.label.isNamed Word.text) = [] := by
        rw [List.filter_eq_nil_iff]
        intro m hm
        have hm : m.label ∈ (labels cs).toList := by
          rw [labels, toList_map]
          exact List.mem_map_of_mem hm
        rw [hclosed (by simp [Label.isClosed, hn]) m.label hm]
        exact Bool.false_ne_true
      simp [hn, hnone, texts_tree_of_isNamed cs hn]
    · rw [Bool.not_eq_true] at hn
      simp [hn, texts_tree cs hn, ihc hcs]

/-- In what is no content there are no texts. -/
theorem texts_eq_nil_of_not_content (h : TextsOutside Label.isClosed (labels f))
    (hf : ∀ n ∈ f.roots, n.label.isContent = false) : texts f = [] := by
  induction f with
  | nil => rfl
  | cons node cs rest _ ih =>
    obtain ⟨hclosed, -, hrest⟩ := h
    have hcontent := hf node (by simp [roots])
    have htext : node.label.isNamed Word.text = false := by
      by_contra hn
      rw [Label.isContent_of_isNamed_text (by simpa using hn)] at hcontent
      cases hcontent
    have hcs := texts_eq_nil (hclosed (by simp [Label.isClosed, hcontent]))
    rw [texts_cons, texts_tree cs htext, hcs, ih hrest fun n hn => hf n (by simp [roots, hn]), List.append_nil]

end Outside

/-! ## The texts of a scope -/

/-- Whether the texts of the tree at `root` are outside of what is closed, and are `ls`. -/
structure Listed (d : Document) (root : NodeId) (ls : List Landmark) : Prop where
  wellFormed : d.WellFormed
  exists_eq : ∃ node cs, d.treeAt root = tree node cs ∧ node.label.isNamed Word.text = false
  outside : TextsOutside Label.isClosed (labels (d.treeAt root))
  texts_eq : texts (d.treeAt root) = ls

/-- Where in the scope a text stands. -/
structure TextAt (d : Document) (root : NodeId) (u : List Landmark) (x : Landmark) (v : List Landmark)
    (fr : Frame Node) (up : List (Frame Node)) (l : Forest Node) (a : Node) (as r : Forest Node) : Prop where
  treeAt_eq : d.treeAt root = wrap (fr :: up) (l ++ cons a as r)
  isOpen : ∀ fr' ∈ fr :: up, fr'.value.label.isClosed = false
  isNamed : a.label.isNamed Word.text = true
  eq : x = ⟨a.id, .text a.label.marks (innerText (labels as)), []⟩
  texts_eq : ∀ g, texts (wrap (fr :: up) (l ++ (g ++ r))) = u ++ (texts g ++ v)

section Listed

variable {d d' : Document} {root : NodeId} {ls u v : List Landmark} {x : Landmark} {fr : Frame Node}
  {up : List (Frame Node)} {l as r g : Forest Node} {a : Node} {marks : List String} {s : String}

theorem Listed.mem_ids (h : Listed d root ls) : root ∈ d.ids := by
  obtain ⟨node, cs, htree, -⟩ := h.exists_eq
  obtain ⟨hmem, hid⟩ := h.wellFormed.mem_ids_of_treeAt htree
  exact hid ▸ hmem

theorem Listed.exists_textAt (h : Listed d root (u ++ x :: v)) :
    ∃ fr up l a as r, TextAt d root u x v fr up l a as r := by
  obtain ⟨up, l, a, as, r, htree, -, ha, hx, htexts⟩ := exists_text_spot h.texts_eq
  obtain ⟨node, cs, hnode, hname⟩ := h.exists_eq
  obtain ⟨fr, up, rfl⟩ := exists_frame_of_ne (htree.symm.trans hnode) (by
    rintro rfl
    rw [ha] at hname
    cases hname)
  refine ⟨fr, up, l, a, as, r, htree, (htree ▸ h.outside).open_of_wrap ⟨a.label, ?_, ha⟩, ha, hx, htexts⟩
  simp [toList]

theorem TextAt.outside (hx : TextAt d root u x v fr up l a as r)
    (h : TextsOutside Label.isClosed (labels (d.treeAt root))) :
    TextsOutside Label.isClosed (labels l) ∧ TextsOutside Label.isClosed (labels (tree a as)) ∧
      TextsOutside Label.isClosed (labels r) := by
  have := TextsOutside.of_wrap (hx.treeAt_eq ▸ h)
  rw [labels_append, labels_cons, textsOutside_append] at this
  exact ⟨this.1, ⟨this.2.1, this.2.2.1, trivial⟩, this.2.2.2⟩

/-- The list after other trees have been put in the place of a text. -/
theorem Listed.replace (h : Listed d root (u ++ x :: v)) (hx : TextAt d root u x v fr up l a as r)
    (wf' : d'.WellFormed) (hg : d'.treeAt root = wrap (fr :: up) (l ++ (g ++ r)))
    (hout : TextsOutside Label.isClosed (labels g)) : Listed d' root (u ++ (texts g ++ v)) where
  wellFormed := wf'
  exists_eq := by
    obtain ⟨node, cs, htree, hnode⟩ := h.exists_eq
    obtain ⟨cs', hcs'⟩ := exists_tree_wrap (hx.treeAt_eq.symm.trans htree) (l ++ (g ++ r))
    exact ⟨node, cs', hg.trans hcs', hnode⟩
  outside := by
    obtain ⟨hl, -, hr⟩ := hx.outside h.outside
    rw [hg]
    refine (hx.treeAt_eq ▸ h.outside).wrap hx.isOpen ?_
    rw [labels_append, labels_append, textsOutside_append, textsOutside_append]
    exact ⟨hl, hout, hr⟩
  texts_eq := by rw [hg, hx.texts_eq]

theorem TextAt.text (h : TextAt d root u x v fr up l a as r) (hs : x.sign = .text marks s) :
    a.label.marks = marks ∧ innerText (labels as) = s := by
  have hx : Sign.text a.label.marks (innerText (labels as)) = .text marks s := by rw [← hs, h.eq]
  exact Sign.text.inj hx

/-- What is in a text of the list. -/
theorem Listed.innerText_eq (h : Listed d root (u ++ x :: v)) (hx : x.sign = .text marks s) :
    d.innerText x.node = s := by
  obtain ⟨fr, up, l, a, as, r, hat⟩ := h.exists_textAt
  rw [hat.eq, Document.innerText_of_treeAt (h.wellFormed.treeAt_of_spot hat.treeAt_eq)
    (Label.WellMarked.isElement_of_isNamed hat.isNamed), (hat.text hx).2]

/-- The mark of a text of the list. -/
theorem Listed.attribute?_mark (h : Listed d root (u ++ x :: v)) (hx : x.sign = .text marks s) :
    d.attribute? x.node Word.markAttribute = marks.head? := by
  obtain ⟨fr, up, l, a, as, r, hat⟩ := h.exists_textAt
  rw [hat.eq, Document.attribute?, Document.label?, h.wellFormed.treeAt_of_spot hat.treeAt_eq,
    ← (hat.text hx).1, ← attribute?_mark_eq]
  rfl

/-- The texts of a list are different nodes. -/
theorem Listed.nodup (h : Listed d root ls) : (ls.map Landmark.node).Nodup := by
  rw [← h.texts_eq, ← filter_isNamed_text h.outside]
  exact (h.wellFormed.nodup_treeAt root).sublist (List.filter_sublist.map _)

/-- The flattened text of a scope is that of its texts. -/
theorem Listed.ofDocument_eq (h : Listed d root ls) :
    (FlatText.ofDocument d root).entries = flatEntries ls := by
  have key : ∀ v u : List Landmark, ls = u ++ v →
      (v.map Landmark.node).flatMap (fun n => FlatText.entriesOf n (d.innerText n).toList) = flatEntries v := by
    intro v
    induction v with
    | nil => intro _ _; rfl
    | cons x v ih =>
      rintro u rfl
      have hv := ih (u ++ [x]) (by simp)
      obtain ⟨fr, up, l, a, as, r, hat⟩ := h.exists_textAt
      have hsign : x.sign = .text a.label.marks (innerText (labels as)) := by rw [hat.eq]
      rw [List.map_cons, List.flatMap_cons, hv, flatEntries_cons, h.innerText_eq hsign, Landmark.entries, hsign]
      rfl
  rw [FlatText.ofDocument, Document.textElements, filter_isNamed_text h.outside, h.texts_eq]
  exact key ls [] rfl

/-- The texts of a scope. -/
theorem listed_texts (wf : d.WellFormed) (hroot : root ∈ d.ids) (hname : d.isNamed root Word.text = false)
    (h : TextsOutside Label.isClosed (d.labelsAt root)) : Listed d root (texts (d.treeAt root)) := by
  obtain ⟨node, cs, rfl, htree⟩ := wf.exists_treeAt hroot
  refine ⟨wf, ⟨node, cs, htree, ?_⟩, h, rfl⟩
  rw [Document.isNamed, Document.name?, Document.label?, htree] at hname
  exact hname

/-! ## Changing the texts of a scope -/

theorem textsOutside_textTree {closed : Label → Bool} (label : Label) (content : String) :
    TextsOutside closed (tree label (textChildren content)) := by
  refine ⟨fun _ m hm => ?_, ?_, trivial⟩
  · unfold textChildren at hm
    split at hm
    · cases hm
    · obtain rfl : m = .text content := by simpa [tree, toList] using hm
      rfl
  · unfold textChildren
    split
    · trivial
    · exact ⟨fun _ m hm => (by cases hm), trivial, trivial⟩

/-- What a text element with this content comes to. -/
theorem texts_text {a : Node} {cs : Forest Node} {content : String} (hn : a.label.isNamed Word.text = true)
    (hcs : labels cs = textChildren content) :
    texts (tree a cs) = [⟨a.id, .text a.label.marks content, []⟩] ∧
      TextsOutside Label.isClosed (labels (tree a cs)) := by
  refine ⟨by rw [texts_tree_of_isNamed cs hn, hcs, innerText_textChildren], ?_⟩
  rw [labels_tree, hcs]
  exact textsOutside_textTree a.label content

/-- A new text element. -/
theorem texts_textElement {f : Forest Node} {n : NodeId} {d₁ : Document} {content : String}
    (hf : labels f = textElement content) (hmakes : d.Makes d₁ n f) :
    texts f = [⟨n, .text [] content, []⟩] ∧ TextsOutside Label.isClosed (labels f) := by
  obtain ⟨b, bs, rfl, hfb⟩ := hmakes.extends_eq.grows.wellFormed.exists_treeAt hmakes.mem_ids
  rw [hmakes.treeAt_eq] at hfb
  subst hfb
  obtain ⟨hlabel, hbs, -⟩ := Forest.cons.inj hf
  obtain ⟨htexts, hout⟩ := texts_text (a := b) (by rw [hlabel]; decide) hbs
  have hmarks : b.label.marks = [] := by
    rw [hlabel]
    decide
  exact ⟨by rw [htexts, hmarks], hout⟩

theorem setText_listed (h : Listed d root (u ++ x :: v)) (hx : x.sign = .text marks s) (content : String) :
    Listed (d.setText x.node content) root (u ++ ⟨x.node, .text marks content, x.path⟩ :: v) := by
  have wf := h.wellFormed
  obtain ⟨fr, up, l, a, as, r, hat⟩ := h.exists_textAt
  obtain ⟨rfl, -⟩ := hat.text hx
  obtain ⟨cs, hcs, hw, ht, -⟩ := Document.setText_spec (.refl wf) wf h.mem_ids hat.treeAt_eq
    (Label.WellMarked.isElement_of_isNamed hat.isNamed) content
  obtain ⟨htexts, hout⟩ := texts_text hat.isNamed hcs
  have := h.replace hat hw.grows.wellFormed (g := tree a cs) ht hout
  rw [htexts] at this
  rw [hat.eq]
  exact this

theorem writeMarked_listed (h : Listed d root (u ++ x :: v)) (hx : x.sign = .text marks s)
    (content name : String) :
    Listed ((d.writeText x.node content).setAttribute x.node Word.markAttribute name) root
      (u ++ ⟨x.node, .text (name :: marks.tail) content, x.path⟩ :: v) := by
  have wf := h.wellFormed
  obtain ⟨fr, up, l, a, as, r, hat⟩ := h.exists_textAt
  obtain ⟨rfl, -⟩ := hat.text hx
  have he := Label.WellMarked.isElement_of_isNamed hat.isNamed
  obtain ⟨cs, hcs, hw, ht, -⟩ := Document.writeText_spec (.refl wf) wf h.mem_ids hat.treeAt_eq he content
  have hw' := hw.relabel wf (Document.mem_of_spot ht) (Label.setAttribute Word.markAttribute name)
  have ht' := Document.treeAt_relabel_spot hw.grows.wellFormed ht (Label.setAttribute Word.markAttribute name)
  obtain ⟨htexts, hout⟩ := texts_text
    (a := ⟨a.id, (a.label.setAttribute Word.spaceAttribute "preserve").setAttribute Word.markAttribute name⟩)
    (by simpa using hat.isNamed) hcs
  have := h.replace hat hw'.grows.wellFormed (g := tree _ cs) ht' hout
  rw [htexts, marks_setAttribute_mark (by simpa using he), Label.marks_setAttribute_space] at this
  rw [hat.eq]
  exact this

theorem insertBefore_listed (h : Listed d root (u ++ x :: v)) (content : String) :
    Listed ((d.createTextElement content).2.insertBefore x.node (d.createTextElement content).1) root
      (u ++ ⟨(d.createTextElement content).1, .text [] content, x.path⟩ :: x :: v) := by
  have wf := h.wellFormed
  obtain ⟨fr, up, l, a, as, r, hat⟩ := h.exists_textAt
  obtain ⟨f, hf, hmakes⟩ := Document.createTextElement_spec wf content
  obtain ⟨hw, ht⟩ := hmakes.insertBefore_spec (.refl wf) wf h.mem_ids hat.treeAt_eq
  obtain ⟨htexts, hout⟩ := texts_textElement hf hmakes
  have := h.replace hat hw.grows.wellFormed (g := f ++ tree a as) (by rw [ht, append_assoc]; rfl) (by
    rw [labels_append, textsOutside_append]
    exact ⟨hout, (hat.outside h.outside).2.1⟩)
  rw [texts_append, htexts, texts_tree_of_isNamed as hat.isNamed] at this
  rw [hat.eq]
  simpa using this

theorem insertAfter_listed (h : Listed d root (u ++ x :: v)) (content : String) :
    Listed ((d.createTextElement content).2.insertAfter x.node (d.createTextElement content).1) root
      (u ++ x :: ⟨(d.createTextElement content).1, .text [] content, x.path⟩ :: v) := by
  have wf := h.wellFormed
  obtain ⟨fr, up, l, a, as, r, hat⟩ := h.exists_textAt
  obtain ⟨f, hf, hmakes⟩ := Document.createTextElement_spec wf content
  obtain ⟨hw, ht⟩ := hmakes.insertAfter_spec (.refl wf) wf h.mem_ids hat.treeAt_eq
  obtain ⟨htexts, hout⟩ := texts_textElement hf hmakes
  have := h.replace hat hw.grows.wellFormed (g := tree a as ++ f) (by rw [ht]; rfl) (by
    rw [labels_append, textsOutside_append]
    exact ⟨(hat.outside h.outside).2.1, hout⟩)
  rw [texts_append, htexts, texts_tree_of_isNamed as hat.isNamed] at this
  rw [hat.eq]
  simpa using this

/-- Taking a text out, with the run in which nothing else is. -/
theorem detachFromRun_listed (h : Listed d root (u ++ x :: v)) :
    Listed (d.detachFromRun x.node) root (u ++ v) := by
  have wf := h.wellFormed
  obtain ⟨fr, up, l, a, as, r, hat⟩ := h.exists_textAt
  obtain ⟨node, cs, hnode, hname⟩ := h.exists_eq
  obtain ⟨hw, ht⟩ := detachFromRun_spec (.refl wf) wf h.mem_ids ⟨node, cs, hnode⟩ hat.treeAt_eq
  obtain ⟨hl, -, hr⟩ := hat.outside h.outside
  have hgone := hat.texts_eq nil
  rw [hat.eq]
  rcases ht with ht | ⟨hup, -, hcontent, ht⟩
  · exact h.replace hat hw.grows.wellFormed (g := nil) ht trivial
  · -- The run has no other texts.
    have hopen := fun fr' hfr => hat.isOpen fr' (List.mem_cons_of_mem fr hfr)
    obtain ⟨fr₂, up₂, rfl⟩ := List.exists_cons_of_ne_nil hup
    have hspot : d.treeAt root = wrap (fr₂ :: up₂) (fr.before ++ cons fr.value (l ++ cons a as r) fr.after) :=
      hat.treeAt_eq
    obtain ⟨cs', hcs'⟩ := exists_tree_wrap (hspot.symm.trans hnode) (fr.before ++ fr.after)
    have hrun := TextsOutside.of_wrap (hspot ▸ h.outside)
    rw [labels_append, labels_cons, textsOutside_append] at hrun
    refine ⟨hw.grows.wellFormed, ⟨node, cs', ht.trans hcs', hname⟩, ?_, ?_⟩
    · rw [ht]
      refine (hspot ▸ h.outside).wrap hopen ?_
      rw [labels_append, textsOutside_append]
      exact ⟨hrun.1, hrun.2.2.2⟩
    · have hnone : texts (l ++ r) = [] := by
        refine texts_eq_nil_of_not_content ?_ hcontent
        rw [labels_append, textsOutside_append]
        exact ⟨hl, hr⟩
      have hvalue : fr.value.label.isNamed Word.text = false :=
        isNamed_text_of_isClosed (hat.isOpen fr (List.mem_cons_self ..))
      rw [ht, ← List.nil_append v, ← texts_nil, ← hgone]
      refine texts_wrap_congr (fun fr' hfr => isNamed_text_of_isClosed (hopen fr' hfr)) ?_
      rw [texts_append, texts_append, texts_cons, texts_tree _ hvalue, nil_append, hnone, List.nil_append]

/-- The list of the texts of a scope follows the document. -/
theorem isolable_listed : Isolable fun d ls => Listed d root ls where
  nodup := Listed.nodup
  innerText_eq := Listed.innerText_eq
  setText := setText_listed
  writeMarked := writeMarked_listed
  insertBefore := insertBefore_listed
  insertAfter := insertAfter_listed
  detachFromRun := detachFromRun_listed

end Listed

end WordTemplate
