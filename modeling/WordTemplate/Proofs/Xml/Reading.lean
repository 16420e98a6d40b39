import WordTemplate.Proofs.Xml.Lookup
import WordTemplate.Proofs.Xml.Tags
import WordTemplate.Xml.Reading

/-!
# Reading undoes writing

A reader that has some element open goes on from there: the markup of trees adds them to the innermost open
element, whatever follows the markup. Texts come back in pieces, cut at the references, and the pieces are put
together again.

Some trees can be written but not read (`IsRegular`): names that are none, texts that touch, and texts where
blanks are layout. Nodes below a text are not written (`written`).

* `applyTokens_markup`: the markup of trees, read below an open element.
* `readDocument_serialize`: a document that is written is read as it was.
-/

namespace WordTemplate.Xml

open Forest

namespace Frame

/-- Adds trees behind those that are there. -/
def extend (f : Frame) : Forest Label → Frame
  | .nil => f
  | .cons label children rest => (f.add label children).extend rest

@[simp] theorem tag_extend (f : Frame) (g : Forest Label) : (f.extend g).tag = f.tag := by
  induction g generalizing f with
  | nil => rfl
  | cons label cs rest _ ih => exact ih _

theorem ofTrees_append (l l' : List (Label × Forest Label)) : ofTrees (l ++ l') = ofTrees l ++ ofTrees l' := by
  induction l with
  | nil => rfl
  | cons p l ih => simp [ofTrees, ih]

theorem forest_extend (f : Frame) (g : Forest Label) : (f.extend g).forest = f.forest ++ g := by
  induction g generalizing f with
  | nil => simp [extend]
  | cons label cs rest _ ih =>
    rw [extend, ih, forest, forest, add, List.reverse_cons, ofTrees_append, append_assoc]
    rfl

end Frame

namespace Partial

/-- Whether some element has not ended. -/
def IsOpen (p : Partial) : Prop :=
  p.inner ≠ [] ∨ p.rootOpen = true

/-- The innermost element that has not ended. -/
def top (p : Partial) : Frame :=
  p.inner.headD p.root

/-- The same with another innermost element. -/
def setTop (p : Partial) (f : Frame) : Partial :=
  match p.inner with
  | [] => { p with root := f }
  | _ :: others => { p with inner := f :: others }

variable {p : Partial} {f g : Frame}

@[simp] theorem top_setTop : (p.setTop f).top = f := by
  obtain ⟨root, inner, rootOpen⟩ := p
  cases inner <;> rfl

@[simp] theorem setTop_setTop : (p.setTop f).setTop g = p.setTop g := by
  obtain ⟨root, inner, rootOpen⟩ := p
  cases inner <;> rfl

@[simp] theorem setTop_top : p.setTop p.top = p := by
  obtain ⟨root, inner, rootOpen⟩ := p
  cases inner <;> rfl

theorem IsOpen.setTop (h : p.IsOpen) (f : Frame) : (p.setTop f).IsOpen := by
  obtain ⟨root, inner, rootOpen⟩ := p
  cases inner with
  | nil => exact h
  | cons g others => exact .inl (by simp [Partial.setTop])

theorem addText_eq (h : p.IsOpen) (content : String) :
    p.addText content = p.setTop (p.top.addText content) := by
  obtain ⟨root, inner, rootOpen⟩ := p
  cases inner with
  | nil =>
    have hopen : rootOpen = true := h.resolve_left (by simp)
    simp [Partial.addText, setTop, top, hopen]
  | cons g others => rfl

theorem isOpen_openTag (p : Partial) (tag : Element) : (p.openTag tag false).IsOpen :=
  .inl (by simp [openTag])

theorem top_openTag (p : Partial) (tag : Element) : (p.openTag tag false).top = ⟨tag, []⟩ :=
  rfl

/-- An element without children. -/
theorem openTag_empty (p : Partial) (tag : Element) :
    p.openTag tag true = p.setTop (p.top.add (.element tag) .nil) := by
  obtain ⟨root, inner, rootOpen⟩ := p
  cases inner <;> rfl

/-- The end of an element. -/
theorem endTag_setTop (tag : Element) (children : List (Label × Forest Label)) :
    ((p.openTag tag false).setTop ⟨tag, children⟩).endTag tag.name =
      .ok (p.setTop (p.top.add (.element tag) (Frame.forest ⟨tag, children⟩))) := by
  obtain ⟨root, inner, rootOpen⟩ := p
  cases inner <;> simp [openTag, setTop, endTag, closeInner, top]

end Partial




/-! ## Texts -/

namespace Frame

variable {f : Frame}

/-- Whether the last tree is a text. -/
def endsWithText (f : Frame) : Bool :=
  f.children.head?.any fun p => !p.1.isElement

theorem addText_of_keeps {content : String} (h : keepsText f.tag.name content = true)
    (hlast : f.endsWithText = false) : f.addText content = f.add (.text content) .nil := by
  obtain ⟨tag, children⟩ := f
  unfold addText
  rw [if_pos h]
  split
  · next he =>
    dsimp only at he
    simp [endsWithText, he, Label.isElement] at hlast
  · rfl

/-- Two pieces of character data that are kept are one text. -/
theorem addText_addText {s t : String} (hs : keepsText f.tag.name s = true)
    (ht : keepsText f.tag.name t = true) (hst : keepsText f.tag.name (s ++ t) = true) :
    (f.addText s).addText t = f.addText (s ++ t) := by
  obtain ⟨tag, children⟩ := f
  dsimp only at hs ht hst
  match children with
  | [] => simp [addText, add, hs, ht, hst]
  | (.text before, below) :: others => simp [addText, hs, ht, hst, String.append_assoc]
  | (.element other, below) :: others => simp [addText, add, hs, ht, hst]

theorem addText_eq_self {s : String} (h : keepsText f.tag.name s = false) : f.addText s = f := by
  simp [addText, h]

@[simp] theorem tag_addText (s : String) : (f.addText s).tag = f.tag := by
  unfold addText
  split
  · split <;> rfl
  · rfl

end Frame

/-- The character data among `pieces` that an element named `parent` keeps. -/
def keptText (parent : String) (pieces : List (List Char)) : List Char :=
  (pieces.filter fun piece => keepsText parent (String.ofList piece)).flatten

theorem keepsText_iff {parent content : String} : keepsText parent content = true ↔
    localName parent ∈ textContainers ∨ ∃ c ∈ content.toList, Text.isBlank c = false := by
  rw [keepsText, Bool.or_eq_true, List.contains_iff_mem, Bool.not_eq_true', Text.isBlankText,
    ← Bool.not_eq_true, List.all_eq_true]
  simp

theorem keepsText_append {parent s t : String} (h : keepsText parent s = true) :
    keepsText parent (s ++ t) = true := by
  rw [keepsText_iff] at h ⊢
  exact h.imp_right fun ⟨c, hc, hblank⟩ => ⟨c, by simp [hc], hblank⟩

/-- Pieces are kept as one text. -/
theorem foldl_addText (f : Frame) (pieces : List (List Char)) :
    pieces.foldl (fun f piece => f.addText (String.ofList piece)) f =
      if pieces.any fun piece => keepsText f.tag.name (String.ofList piece) then
        f.addText (String.ofList (keptText f.tag.name pieces))
      else f := by
  -- The text that is there is continued by the pieces that are still to come.
  have hcontinue : ∀ (pieces : List (List Char)) (f : Frame) (s : String),
      keepsText f.tag.name s = true →
        pieces.foldl (fun f piece => f.addText (String.ofList piece)) (f.addText s) =
          f.addText (s ++ String.ofList (keptText f.tag.name pieces)) := by
    intro pieces
    induction pieces with
    | nil => intro f s _; simp [keptText]
    | cons piece pieces ih =>
      intro f s hs
      rw [List.foldl_cons]
      cases hpiece : keepsText f.tag.name (String.ofList piece) with
      | true =>
        rw [Frame.addText_addText hs hpiece (keepsText_append hs), ih f _ (keepsText_append hs)]
        simp [keptText, hpiece, String.append_assoc]
      | false =>
        rw [Frame.addText_eq_self (by rwa [Frame.tag_addText]), ih f s hs]
        simp [keptText, hpiece]
  induction pieces with
  | nil => rfl
  | cons piece pieces ih =>
    rw [List.foldl_cons, List.any_cons]
    cases hpiece : keepsText f.tag.name (String.ofList piece) with
    | true =>
      rw [hcontinue pieces f _ hpiece]
      simp [keptText, hpiece]
    | false =>
      rw [Frame.addText_eq_self hpiece, ih]
      simp [keptText, hpiece]

theorem applyTokens_textTokens {p : Partial} (hp : p.IsOpen) (pieces : List (List Char)) (ts : List Token) :
    applyTokens (some p) (textTokens pieces ++ ts) =
      applyTokens (some (p.setTop (pieces.foldl (fun f piece => f.addText (String.ofList piece)) p.top))) ts := by
  induction pieces generalizing p with
  | nil => simp [textTokens]
  | cons piece pieces ih =>
    show applyTokens (some (p.addText (String.ofList piece))) (textTokens pieces ++ ts) = _
    rw [Partial.addText_eq hp, ih (hp.setTop _)]
    simp

/-! ## Trees -/

/-- The trees that are written: those below a text are not. -/
def written : Forest Label → Forest Label
  | .nil => .nil
  | .cons (.text content) _ rest => .cons (.text content) .nil (written rest)
  | .cons (.element tag) children rest => .cons (.element tag) (written children) (written rest)

/-- Whether the first tree is a text. -/
def beginsWithText : Forest Label → Bool
  | .nil => false
  | .cons label _ _ => !label.isElement

/-- Whether trees below an element named `parent` can be written and read again: texts are not empty, nor
next to each other, and only elements for text hold them. -/
def IsRegular (parent : String) : Forest Label → Prop
  | .nil => True
  | .cons (.text content) _ rest =>
    content ≠ "" ∧ localName parent ∈ textContainers ∧ beginsWithText rest = false ∧ IsRegular parent rest
  | .cons (.element tag) children rest =>
    tag.IsRegular ∧ IsRegular tag.name children ∧ IsRegular parent rest

/-- Whether there is nothing below the texts. -/
def TextsAreLeaves : Forest Label → Prop
  | .nil => True
  | .cons (.text _) children rest => children = .nil ∧ TextsAreLeaves rest
  | .cons (.element _) children rest => TextsAreLeaves children ∧ TextsAreLeaves rest

theorem written_eq_self {f : Forest Label} (h : TextsAreLeaves f) : written f = f := by
  induction f with
  | nil => rfl
  | cons label children rest ihc iho =>
    cases label with
    | text content => rw [written, h.1, iho h.2]
    | element tag => rw [written, ihc h.1, iho h.2]

instance decidableIsRegular (parent : String) : (f : Forest Label) → Decidable (IsRegular parent f)
  | .nil => .isTrue trivial
  | .cons (.text _) _ rest =>
    have := decidableIsRegular parent rest
    inferInstanceAs (Decidable (_ ∧ _ ∧ _ ∧ _))
  | .cons (.element tag) children rest =>
    have := decidableIsRegular tag.name children
    have := decidableIsRegular parent rest
    inferInstanceAs (Decidable (_ ∧ _ ∧ _))

instance decidableTextsAreLeaves : (f : Forest Label) → Decidable (TextsAreLeaves f)
  | .nil => .isTrue trivial
  | .cons (.text _) _ rest =>
    have := decidableTextsAreLeaves rest
    inferInstanceAs (Decidable (_ ∧ _))
  | .cons (.element _) children rest =>
    have := decidableTextsAreLeaves children
    have := decidableTextsAreLeaves rest
    inferInstanceAs (Decidable (_ ∧ _))

/-! ## Reading what is written -/

/-- The end of an element, below which trees have been read. -/
theorem applyTokens_endTag (p : Partial) (tag : Element) (g : Forest Label) (ts : List Token) :
    applyTokens (some ((p.openTag tag false).setTop ((p.openTag tag false).top.extend g)))
        (.endTag tag.name :: ts) =
      applyTokens (some (p.setTop (p.top.add (.element tag) g))) ts := by
  have hframe : Frame.extend ⟨tag, []⟩ g = ⟨tag, (Frame.extend ⟨tag, []⟩ g).children⟩ := by
    rw [Frame.mk.injEq]
    exact ⟨Frame.tag_extend .., rfl⟩
  have hforest : Frame.forest ⟨tag, (Frame.extend ⟨tag, []⟩ g).children⟩ = g := by
    rw [← hframe, Frame.forest_extend]
    rfl
  have hend := p.endTag_setTop tag (Frame.extend ⟨tag, []⟩ g).children
  rw [hforest, ← hframe] at hend
  rw [applyTokens, p.top_openTag, Token.apply, hend]
  rfl

theorem markup_element (tag : Element) (children rest : Forest Label) :
    (markup (.cons (.element tag) children rest)).toList =
      '<' :: (tag.name.toList ++ (tag.attributeMarkup.toList ++
        match children with
        | .nil => '/' :: '>' :: (markup rest).toList
        | .cons .. => '>' :: ((markup children).toList ++
            '<' :: '/' :: (tag.name.toList ++ '>' :: (markup rest).toList)))) := by
  cases children <;> simp [markup]

theorem endsText_markup {f : Forest Label} (h : beginsWithText f = false) {rest : List Char}
    (hrest : EndsText rest) : EndsText ((markup f).toList ++ rest) := by
  match f, h with
  | .nil, _ => exact hrest
  | .cons (.element tag) children others, _ =>
    rw [markup_element]
    rintro c ⟨⟩
    rfl

/-- The markup of trees adds them to the innermost element. -/
theorem applyTokens_markup {parent : String} {f : Forest Label} (h : IsRegular parent f) {rest : List Char}
    (hrest : EndsText rest) {p : Partial} (hp : p.IsOpen) (hname : p.top.tag.name = parent)
    (hlast : p.top.endsWithText = true → beginsWithText f = false) :
    applyTokens (some p) (tokens ((markup f).toList ++ rest)) =
      applyTokens (some (p.setTop (p.top.extend (written f)))) (tokens rest) := by
  induction f generalizing parent p rest with
  | nil => simp [markup, written, Frame.extend]
  | cons label children others ihc iho =>
    cases label with
    | text content =>
      obtain ⟨hne, hcontainer, hbegins, hothers⟩ := h
      have hkeeps : ∀ s, keepsText p.top.tag.name s = true := fun s =>
        keepsText_iff.mpr (.inl (hname ▸ hcontainer))
      have hlast : p.top.endsWithText = false := by
        refine Bool.eq_false_iff.mpr fun hends => ?_
        cases hlast hends
      obtain ⟨pieces, htokens, hjoin⟩ := exists_tokens_escape content
        (endsText_markup hbegins hrest)
      have hpieces : pieces ≠ [] := by
        rintro rfl
        exact hne (String.toList_inj.mp hjoin.symm)
      have htext : pieces.foldl (fun f piece => f.addText (String.ofList piece)) p.top =
          p.top.add (.text content) .nil := by
        rw [foldl_addText, keptText, if_pos, List.filter_eq_self.mpr fun _ _ => hkeeps _, hjoin,
          String.ofList_toList, Frame.addText_of_keeps (hkeeps content) hlast]
        obtain ⟨piece, pieces, rfl⟩ := List.exists_cons_of_ne_nil hpieces
        simp [hkeeps]
      rw [markup, String.toList_append, List.append_assoc, htokens, applyTokens_textTokens hp, htext,
        iho hothers hrest (hp.setTop _) (by rw [Partial.top_setTop]; exact hname) fun _ => hbegins]
      simp [written, Frame.extend]
    | element tag =>
      obtain ⟨htag, hchildren, hothers⟩ := h
      have hother := iho hothers hrest (hp.setTop (p.top.add (.element tag) (written children)))
        (by rw [Partial.top_setTop]; exact hname) (by simp [Frame.endsWithText, Frame.add, Label.isElement])
      rw [Partial.top_setTop, Partial.setTop_setTop] at hother
      rw [markup_element, written, Frame.extend, ← hother]
      cases children with
      | nil =>
        simp only [List.cons_append, List.append_assoc]
        rw [tokens_emptyTag htag]
        show applyTokens (some (p.openTag tag true)) _ = _
        rw [Partial.openTag_empty]
        rfl
      | cons label below more =>
        simp only [List.cons_append, List.append_assoc]
        rw [tokens_startTag htag]
        show applyTokens (some (p.openTag tag false)) _ = _
        rw [ihc hchildren (by rintro c ⟨⟩; rfl) (p.isOpen_openTag tag) rfl (by
          simp [p.top_openTag, Frame.endsWithText]), tokens_endTag htag.isName, applyTokens_endTag]

/-- Writing trees makes no declaration. -/
theorem declaration_mem_tokens_markup {parent : String} {f : Forest Label} (h : IsRegular parent f)
    {rest : List Char} (hrest : EndsText rest) :
    .declaration ∈ tokens ((markup f).toList ++ rest) ↔ .declaration ∈ tokens rest := by
  induction f generalizing parent rest with
  | nil => rfl
  | cons label children others ihc iho =>
    cases label with
    | text content =>
      obtain ⟨-, -, hbegins, hothers⟩ := h
      obtain ⟨pieces, htokens, -⟩ := exists_tokens_escape content (endsText_markup hbegins hrest)
      rw [markup, String.toList_append, List.append_assoc, htokens, List.mem_append, iho hothers hrest]
      simp [textTokens]
    | element tag =>
      obtain ⟨htag, hchildren, hothers⟩ := h
      have hother := iho hothers hrest
      rw [markup_element]
      cases children with
      | nil =>
        simp only [List.cons_append, List.append_assoc]
        rw [tokens_emptyTag htag, List.mem_cons, hother]
        simp
      | cons label below more =>
        simp only [List.cons_append, List.append_assoc]
        rw [tokens_startTag htag, List.mem_cons, ihc hchildren (by rintro c ⟨⟩; rfl),
          tokens_endTag htag.isName, List.mem_cons, hother]
        simp

/-! ## Documents -/

/-- Elements without anything below them are the only ones that have not ended. -/
theorem applyTokens_root (tag : Element) (g : Forest Label) :
    let p : Partial := ⟨Frame.extend ⟨tag, []⟩ g, [], true⟩
    applyTokens (some p) [.endTag tag.name] = .ok (some { p with rootOpen := false }) := by
  simp [applyTokens, Token.apply, Partial.endTag, Except.map, Except.bind]

/-- The markup of an element is read as this element. -/
theorem exists_applyTokens_element {tag : Element} {children : Forest Label} (htag : tag.IsRegular)
    (hchildren : IsRegular tag.name children) :
    ∃ p : Partial, applyTokens none (tokens (markup (tree (.element tag) children)).toList) = .ok (some p) ∧
      p.finish.tag = tag ∧ p.finish.forest = written children := by
  rw [tree, markup_element]
  cases children with
  | nil =>
    refine ⟨⟨⟨tag, []⟩, [], false⟩, ?_, rfl, rfl⟩
    dsimp only [markup]
    rw [tokens_emptyTag htag]
    simp [applyTokens, Token.apply, Except.bind]
  | cons label below more =>
    refine ⟨⟨Frame.extend ⟨tag, []⟩ (written (.cons label below more)), [], false⟩, ?_,
      Frame.tag_extend .., (Frame.forest_extend ..).trans rfl⟩
    dsimp only
    rw [tokens_startTag htag]
    show applyTokens (some ⟨⟨tag, []⟩, [], true⟩) _ = _
    rw [applyTokens_markup hchildren (by rintro c ⟨⟩; rfl) (.inr rfl) rfl (by simp [Partial.top, Frame.endsWithText]),
      tokens_endTag htag.isName]
    simp only [markup, String.toList_empty, tokens_nil]
    exact applyTokens_root tag _

theorem tokens_declarationLine {s : List Char} (h : EndsText s) :
    tokens (declarationLine.toList ++ s) = .declaration :: .text "\n" :: tokens s := by
  have hnext : Token.next? (declarationLine.toList ++ s) = some (some .declaration, '\n' :: s) := by
    rfl
  rw [tokens_eq hnext]
  exact congrArg (.declaration :: ·) (tokens_plain (p := ['\n']) (by simp) (by simp [Token.isSpecial]) h)

/-- A text that begins with markup has no byte order mark. -/
theorem dropByteOrderMark_eq_self {s : List Char} (h : EndsText s) : dropByteOrderMark s = s := by
  unfold dropByteOrderMark
  split
  · next rest => exact absurd (h _ rfl) (by decide)
  · rfl

/-- Reading undoes writing: the elements with their attributes, the texts and their order come back, and so
does the declaration. What is below a text is the only thing that is lost. -/
theorem readDocument_serialize {d : Document} (wf : d.WellFormed) (h : IsRegular "" (d.labelsAt d.root)) :
    ∃ d', readDocument d.serialize = .ok d' ∧
      d'.labelsAt d'.root = written (d.labelsAt d.root) ∧
      (TextsAreLeaves (d.labelsAt d.root) → d'.labelsAt d'.root = d.labelsAt d.root) ∧
      d'.declaration = d.declaration := by
  suffices hread : ∃ d', readDocument d.serialize = .ok d' ∧
      d'.labelsAt d'.root = written (d.labelsAt d.root) ∧ d'.declaration = d.declaration by
    obtain ⟨d', hok, hlabels, hdeclaration⟩ := hread
    exact ⟨d', hok, hlabels, fun hleaves => hlabels.trans (written_eq_self hleaves), hdeclaration⟩
  obtain ⟨⟨n, label⟩, nodes, -, htree⟩ := wf.exists_treeAt wf.root_mem
  have hlabels : d.labelsAt d.root = tree label (labels nodes) := by rw [Document.labelsAt, htree, labels_tree]
  rw [hlabels] at h ⊢
  obtain ⟨tag, rfl⟩ : ∃ tag, label = .element tag := by
    cases label with
    | text content => exact absurd h.2.1 (by decide)
    | element tag => exact ⟨tag, rfl⟩
  obtain ⟨htag, hchildren, -⟩ := h
  generalize labels nodes = children at hlabels hchildren ⊢
  obtain ⟨p, hread, hptag, hforest⟩ := exists_applyTokens_element htag hchildren
  have hbegins : EndsText (markup (tree (.element tag) children)).toList := by
    rw [tree, markup_element]
    rintro c ⟨⟩
    rfl
  have hdeclaration : .declaration ∉ tokens (markup (tree (.element tag) children)).toList := by
    have hregular : IsRegular "" (tree (.element tag) children) := ⟨htag, hchildren, trivial⟩
    have hmem := declaration_mem_tokens_markup hregular (show EndsText [] by rintro c ⟨⟩)
    rw [List.append_nil] at hmem
    rw [hmem]
    simp
  have htokens : ∃ ts, tokens (dropByteOrderMark d.serialize.toList) = ts ∧
      applyTokens none ts = .ok (some p) ∧ ts.contains .declaration = d.declaration := by
    rw [Document.serialize, Document.markupAt, hlabels]
    cases d.declaration with
    | false =>
      refine ⟨_, rfl, ?_, ?_⟩
      · rw [if_neg (by simp), String.empty_append, dropByteOrderMark_eq_self hbegins]
        exact hread
      · rw [if_neg (by simp), String.empty_append, dropByteOrderMark_eq_self hbegins]
        simpa using hdeclaration
    | true =>
      have hline : EndsText (declarationLine.toList ++ (markup (tree (.element tag) children)).toList) := by
        rintro c ⟨⟩
        rfl
      refine ⟨_, rfl, ?_⟩
      rw [if_pos rfl, String.toList_append, dropByteOrderMark_eq_self hline, tokens_declarationLine hbegins]
      exact ⟨hread, by simp⟩
  obtain ⟨ts, hts, happly, hcontains⟩ := htokens
  refine ⟨{ Document.ofTree p.finish.tag p.finish.forest with declaration := d.declaration }, ?_, ?_, rfl⟩
  · simp only [readDocument, hts, happly, hcontains]
    rfl
  · rw [hptag, hforest]
    exact Document.labelsAt_root_ofTree tag (written children)

/-- A document with a declaration, signs that are written as references, and texts that are only blank. -/
def quotedText : Document :=
  { Document.ofTree ⟨"w:document", [("xmlns:w", "urn:w"), ("title", "say \"a & b\"")]⟩
      (tree (.element ⟨"w:p", []⟩) (.cons (.element ⟨"w:pPr", []⟩) .nil
        (tree (.element ⟨"w:r", []⟩) (.cons (.element ⟨"w:t", [("xml:space", "preserve")]⟩)
          (tree (.text " a < b & c\n") .nil) (tree (.element ⟨"w:t", []⟩) (tree (.text " ") .nil))))))
    with declaration := true }

theorem readDocument_serialize_quotedText :
    ∃ d, readDocument quotedText.serialize = .ok d ∧
      d.labelsAt d.root = quotedText.labelsAt quotedText.root ∧ d.declaration = true := by
  obtain ⟨d, hread, -, hlabels, hdeclaration⟩ := readDocument_serialize (d := quotedText)
    ⟨rfl, by decide +kernel, by decide +kernel, by decide +kernel⟩ (by decide +kernel)
  exact ⟨d, hread, hlabels (by decide +kernel), hdeclaration⟩

end WordTemplate.Xml
