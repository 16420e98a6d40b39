import WordTemplate.Proofs.Xml.Reading

/-!
# How character data is read

The content of an element without child elements is made of characters, references, CDATA sections and
comments (`Segment`). The reader sees it in pieces (`pieces`): characters next to each other are one piece,
each reference and each section is one of its own, and a comment only cuts.

Which pieces are kept is decided for each by itself. So an element gets one text if there is anything in its
content that is not blank, but the blank pieces are not in that text.

* `tokens_segments`: the pieces are what is read.
* `applyTokens_segments`, `readDocument_segments`: the text that an element gets.
* `characterData_eq_nil`, `characterData_ne_nil`, `characterData_eq_tree`: whether it gets one, and when
  nothing is missing in it.
* `blank_lost_between_references`: something can be missing.
-/

namespace WordTemplate

namespace Xml

open Forest

/-! ## Segments -/

/-- A segment of character data. -/
inductive Segment where
  | literal (c : Char)
  /-- The reference to `c` with this between `&` and `;`. -/
  | reference (body : List Char) (c : Char)
  | cdata (content : List Char)
  | comment (content : List Char)
  deriving DecidableEq, Repr

namespace Segment

/-- The segment as it is written. -/
def markup : Segment → List Char
  | literal c => [c]
  | reference body _ => '&' :: (body ++ [';'])
  | cdata content => '<' :: '!' :: '[' :: ("CDATA[".toList ++ (content ++ "]]>".toList))
  | comment content => '<' :: '!' :: '-' :: '-' :: (content ++ "-->".toList)

/-- What the segment stands for. -/
def decoded : Segment → List Char
  | literal c => [c]
  | reference _ c => [c]
  | cdata content => content
  | comment _ => []

/-- Whether the segment can be written: a character begins no markup, a reference stands for its character,
and a section ends where its end is written. -/
def IsRegular : Segment → Prop
  | literal c => Token.isSpecial c = false
  | reference body c =>
    body.all (fun x => x != ';' && x != '&' && x != '<') = true ∧ textReference? body = some c
  | cdata content => ¬ "]]>".toList <:+: content ++ "]]>".toList.dropLast
  | comment content => ¬ "-->".toList <:+: content ++ "-->".toList.dropLast

instance (s : Segment) : Decidable s.IsRegular :=
  match s with
  | literal _ => inferInstanceAs (Decidable (_ = _))
  | reference _ _ => inferInstanceAs (Decidable (_ ∧ _))
  | cdata _ => inferInstanceAs (Decidable (¬ _))
  | comment _ => inferInstanceAs (Decidable (¬ _))

end Segment

/-- The pieces that segments are read in. The characters of `run` are right in front of them. -/
def pieces (run : List Char) : List Segment → List (List Char)
  | [] => if run = [] then [] else [run]
  | .literal c :: rest => pieces (run ++ [c]) rest
  | .reference _ c :: rest => (if run = [] then [] else [run]) ++ [c] :: pieces [] rest
  | .cdata content :: rest => (if run = [] then [] else [run]) ++ content :: pieces [] rest
  | .comment _ :: rest => (if run = [] then [] else [run]) ++ pieces [] rest

/-- The pieces are what the segments stand for. -/
theorem flatten_pieces (run : List Char) (segments : List Segment) :
    (pieces run segments).flatten = run ++ segments.flatMap Segment.decoded := by
  induction segments generalizing run with
  | nil => by_cases h : run = [] <;> simp [pieces, h]
  | cons s segments ih =>
    cases s <;> by_cases h : run = [] <;> simp [pieces, h, ih, Segment.decoded]

/-! ## Reading segments -/

theorem tokens_cdata {content : List Char} (h : (Segment.cdata content).IsRegular) (rest : List Char) :
    tokens ((Segment.cdata content).markup ++ rest) = .text (String.ofList content) :: tokens rest := by
  have hnext : Token.next? ((Segment.cdata content).markup ++ rest) =
      some (some (.text (String.ofList content)), rest) := by
    have hcut := Text.cut?_append rest (by decide) h
    show some (Token.cdata ("CDATA[".toList ++ (content ++ "]]>".toList) ++ rest)) = _
    rw [List.append_assoc, List.append_assoc, Token.cdata, Text.isPrefixOf?_append]
    dsimp only
    rw [hcut]
  rw [tokens_eq hnext]
  rfl

theorem tokens_comment {content : List Char} (h : (Segment.comment content).IsRegular) (rest : List Char) :
    tokens ((Segment.comment content).markup ++ rest) = tokens rest := by
  have hnext : Token.next? ((Segment.comment content).markup ++ rest) = some (none, rest) := by
    have hcut := Text.cut?_append rest (by decide) h
    show some (Token.comment ('-' :: (content ++ "-->".toList ++ rest))) = _
    rw [List.append_assoc, Token.comment, Token.after?, hcut]
    rfl
  rw [tokens_eq hnext]
  rfl

theorem tokens_run {run rest : List Char} (hrun : ∀ c ∈ run, Token.isSpecial c = false)
    (hrest : EndsText rest) :
    tokens (run ++ rest) = textTokens (if run = [] then [] else [run]) ++ tokens rest := by
  split
  · next h =>
    rw [h]
    rfl
  · next h => rw [tokens_plain h hrun hrest]; rfl

/-- Segments are read in their pieces. -/
theorem tokens_segments {segments : List Segment} (h : ∀ s ∈ segments, s.IsRegular) (run rest : List Char)
    (hrun : ∀ c ∈ run, Token.isSpecial c = false) (hrest : EndsText rest) :
    tokens (run ++ (segments.flatMap Segment.markup ++ rest)) =
      textTokens (pieces run segments) ++ tokens rest := by
  induction segments generalizing run with
  | nil => exact tokens_run hrun hrest
  | cons s segments ih =>
    rw [List.forall_mem_cons] at h
    have hothers := ih h.2 [] (by simp)
    rw [List.nil_append] at hothers
    rw [List.flatMap_cons, List.append_assoc]
    cases s with
    | literal c =>
      rw [pieces, ← ih h.2 (run ++ [c])]
      · simp [Segment.markup]
      · rw [List.forall_mem_append, List.forall_mem_singleton]
        exact ⟨hrun, h.1⟩
    | reference body c =>
      rw [tokens_run hrun (by rintro x ⟨⟩; rfl), pieces]
      simp only [Segment.markup, List.cons_append, List.append_assoc, List.nil_append]
      rw [tokens_reference body h.1.1 h.1.2, hothers]
      simp [textTokens]
    | cdata content =>
      rw [tokens_run hrun (by rintro x ⟨⟩; rfl), tokens_cdata h.1, hothers, pieces]
      simp [textTokens]
    | comment content =>
      rw [tokens_run hrun (by rintro x ⟨⟩; rfl), tokens_comment h.1, hothers, pieces]
      simp [textTokens]

/-- What an element named `parent` gets of its content. -/
def characterData (parent : String) (segments : List Segment) : Forest Label :=
  if (pieces [] segments).any fun piece => keepsText parent (String.ofList piece) then
    tree (.text (String.ofList (keptText parent (pieces [] segments)))) .nil
  else .nil

/-- The pieces give an element that has just begun its text. -/
theorem foldl_addText_pieces (tag : Element) (segments : List Segment) :
    (pieces [] segments).foldl (fun (f : Frame) piece => f.addText (String.ofList piece)) ⟨tag, []⟩ =
      Frame.extend ⟨tag, []⟩ (characterData tag.name segments) := by
  rw [foldl_addText, characterData]
  split
  · next hany =>
    obtain ⟨piece, hmem, hkeeps⟩ := List.any_eq_true.mp hany
    have hkept : keepsText tag.name (String.ofList (keptText tag.name (pieces [] segments))) = true := by
      refine keepsText_iff.mpr ((keepsText_iff.mp hkeeps).imp_right fun ⟨c, hc, hblank⟩ => ⟨c, ?_, hblank⟩)
      rw [String.toList_ofList] at hc ⊢
      exact List.mem_flatten.mpr ⟨piece, List.mem_filter.mpr ⟨hmem, hkeeps⟩, hc⟩
    exact Frame.addText_of_keeps hkept rfl
  · rfl

/-- An element, below another one, whose content is character data. -/
theorem applyTokens_segments {tag : Element} (htag : tag.IsRegular) {segments : List Segment}
    (h : ∀ s ∈ segments, s.IsRegular) (p : Partial) (rest : List Char) :
    applyTokens (some p) (tokens ('<' :: (tag.name.toList ++ (tag.attributeMarkup.toList ++
        '>' :: (segments.flatMap Segment.markup ++ '<' :: '/' :: (tag.name.toList ++ '>' :: rest)))))) =
      applyTokens (some (p.setTop (p.top.add (.element tag) (characterData tag.name segments))))
        (tokens rest) := by
  have hcontent := tokens_segments h [] ('<' :: '/' :: (tag.name.toList ++ '>' :: rest))
    (by simp) (by rintro c ⟨⟩; rfl)
  rw [List.nil_append] at hcontent
  rw [tokens_startTag htag, hcontent, tokens_endTag htag.isName]
  show applyTokens (some (p.openTag tag false)) _ = _
  rw [applyTokens_textTokens (p.isOpen_openTag tag), p.top_openTag, foldl_addText_pieces]
  exact applyTokens_endTag ..

/-- The markup of an element whose content is character data. -/
def segmentMarkup (tag : Element) (segments : List Segment) : String :=
  String.ofList ('<' :: (tag.name.toList ++ (tag.attributeMarkup.toList ++
    '>' :: (segments.flatMap Segment.markup ++ '<' :: '/' :: (tag.name.toList ++ ['>'])))))

/-- A document whose root has character data for content. -/
theorem readDocument_segments (tag : Element) (htag : tag.IsRegular) (segments : List Segment)
    (h : ∀ s ∈ segments, s.IsRegular) :
    readDocument (segmentMarkup tag segments) = .ok (.ofTree tag (characterData tag.name segments)) := by
  have hcontent := tokens_segments h [] ('<' :: '/' :: (tag.name.toList ++ '>' :: []))
    (by simp) (by rintro c ⟨⟩; rfl)
  rw [List.nil_append, tokens_endTag htag.isName, tokens_nil] at hcontent
  have htokens : tokens (dropByteOrderMark (segmentMarkup tag segments).toList) =
      .startTag tag false :: (textTokens (pieces [] segments) ++ [.endTag tag.name]) := by
    rw [segmentMarkup, String.toList_ofList, dropByteOrderMark_eq_self (by rintro c ⟨⟩; rfl),
      tokens_startTag htag, hcontent]
  have hdeclaration : (Token.startTag tag false ::
      (textTokens (pieces [] segments) ++ [.endTag tag.name])).contains .declaration = false := by
    simp [textTokens]
  have happly : applyTokens none (.startTag tag false ::
      (textTokens (pieces [] segments) ++ [.endTag tag.name])) =
      .ok (some ⟨Frame.extend ⟨tag, []⟩ (characterData tag.name segments), [], false⟩) := by
    show applyTokens (some ⟨⟨tag, []⟩, [], true⟩) _ = _
    rw [applyTokens_textTokens (.inr rfl)]
    show applyTokens (some ⟨(pieces [] segments).foldl _ ⟨tag, []⟩, [], true⟩) _ = _
    rw [foldl_addText_pieces]
    exact applyTokens_root ..
  simp only [readDocument, htokens, happly, hdeclaration]
  show Except.ok { Document.ofTree (Frame.extend ⟨tag, []⟩ _).tag (Frame.extend ⟨tag, []⟩ _).forest with
    declaration := false } = _
  rw [Frame.tag_extend, Frame.forest_extend]
  rfl

/-! ## What is kept -/

section Kept

variable {parent : String} {segments : List Segment}

/-- Blank content gives no text, however it is written. -/
theorem characterData_eq_nil (hparent : localName parent ∉ textContainers)
    (h : ∀ c ∈ segments.flatMap Segment.decoded, Text.isBlank c = true) :
    characterData parent segments = .nil := by
  refine if_neg fun hany => ?_
  obtain ⟨piece, hmem, hkeeps⟩ := List.any_eq_true.mp hany
  obtain ⟨c, hc, hblank⟩ := (keepsText_iff.mp hkeeps).resolve_left hparent
  have hdecoded : c ∈ segments.flatMap Segment.decoded := by
    rw [← List.nil_append (segments.flatMap _), ← flatten_pieces]
    exact List.mem_flatten.mpr ⟨piece, hmem, by simpa using hc⟩
  rw [h c hdecoded] at hblank
  cases hblank

/-- Other content gives one text: the pieces that are not blank. -/
theorem characterData_ne_nil (h : ∃ c ∈ segments.flatMap Segment.decoded, Text.isBlank c = false) :
    characterData parent segments =
      tree (.text (String.ofList (keptText parent (pieces [] segments)))) .nil := by
  obtain ⟨c, hc, hblank⟩ := h
  rw [← List.nil_append (segments.flatMap _), ← flatten_pieces] at hc
  obtain ⟨piece, hmem, hc⟩ := List.mem_flatten.mp hc
  exact if_pos (List.any_eq_true.mpr ⟨piece, hmem, keepsText_iff.mpr (.inr ⟨c, by simpa, hblank⟩)⟩)

/-- If no piece is blank, the text is what the segments stand for. -/
theorem characterData_eq_tree (hne : segments.flatMap Segment.decoded ≠ [])
    (h : ∀ piece ∈ pieces [] segments, keepsText parent (String.ofList piece) = true) :
    characterData parent segments =
      tree (.text (String.ofList (segments.flatMap Segment.decoded))) .nil := by
  have hflatten := flatten_pieces [] segments
  rw [List.nil_append] at hflatten
  have hany : (pieces [] segments).any (fun piece => keepsText parent (String.ofList piece)) = true := by
    obtain ⟨piece, hmem⟩ := List.exists_mem_of_ne_nil (pieces [] segments) fun he =>
      hne (by rw [← hflatten, he]; rfl)
    exact List.any_eq_true.mpr ⟨piece, hmem, h piece hmem⟩
  rw [characterData, if_pos hany, keptText, List.filter_eq_self.mpr h, hflatten]

end Kept

/-- A blank between two references is lost; in one section with what they stand for it is not. -/
theorem blank_lost_between_references :
    (readDocument "<dc:title>A &amp; &lt;B&gt;</dc:title>").map (fun d => d.labelsAt d.root) =
        .ok (tree (.element ⟨"dc:title", []⟩) (tree (.text "A &<B>") .nil)) ∧
      (readDocument "<dc:title><![CDATA[A & <B>]]></dc:title>").map (fun d => d.labelsAt d.root) =
        .ok (tree (.element ⟨"dc:title", []⟩) (tree (.text "A & <B>") .nil)) := by
  have hreferences := readDocument_segments ⟨"dc:title", []⟩ (by decide +kernel)
    [.literal 'A', .literal ' ', .reference "amp".toList '&', .literal ' ',
      .reference "lt".toList '<', .literal 'B', .reference "gt".toList '>'] (by decide +kernel)
  have hsection := readDocument_segments ⟨"dc:title", []⟩ (by decide +kernel)
    [.cdata "A & <B>".toList] (by decide +kernel)
  constructor
  · refine (congrArg _ hreferences).trans (congrArg Except.ok ?_)
    exact (Document.labelsAt_root_ofTree ..).trans (by decide +kernel)
  · refine (congrArg _ hsection).trans (congrArg Except.ok ?_)
    exact (Document.labelsAt_root_ofTree ..).trans (by decide +kernel)

end Xml

end WordTemplate
