import WordTemplate.Proofs.Xml.References

/-!
# Reading the tags that are written

A tag can be read if the name of the element and the keys of its attributes are names (`isName`) and no
key is there twice. Then the tag ends where it was written to end, and the element in it is the one that
was written.

* `readTag_written`: what a tag says.
* `tokens_startTag`, `tokens_emptyTag`, `tokens_endTag`: the tokens that tags give.
-/

namespace WordTemplate.Xml

/-! ## Names -/

/-- Letters, digits and the signs that a name may hold, with all characters beyond ASCII. -/
def isNameChar (c : Char) : Bool :=
  c.isAlphanum || c == '_' || c == '-' || c == '.' || c == ':' || 128 ≤ c.toNat

/-- Whether a text is a name: it does not begin with a digit, a hyphen or a full stop. -/
def isName (s : String) : Bool :=
  match s.toList with
  | [] => false
  | c :: cs => isNameChar c && !(c.isDigit || c == '-' || c == '.') && cs.all isNameChar

/-- Whether the name and the keys of an element are names, and no key is there twice. -/
structure Element.IsRegular (tag : Element) : Prop where
  isName : isName tag.name = true
  isName_key : ∀ a ∈ tag.attributes, Xml.isName a.1 = true
  nodup_keys : (tag.attributes.map Prod.fst).Nodup

instance decidableIsRegularElement (tag : Element) : Decidable tag.IsRegular :=
  decidable_of_iff (_ ∧ _ ∧ _) ⟨fun ⟨h, h', h''⟩ => ⟨h, h', h''⟩, fun ⟨h, h', h''⟩ => ⟨h, h', h''⟩⟩

theorem isNameChar_of_mem {s : String} (h : isName s = true) : ∀ c ∈ s.toList, isNameChar c = true := by
  unfold isName at h
  split at h
  · cases h
  · next c cs hs =>
    rw [Bool.and_eq_true, Bool.and_eq_true, List.all_eq_true] at h
    rw [hs]
    exact List.forall_mem_cons.mpr ⟨h.1.1, h.2⟩

/-- The characters of markup are in no name. -/
theorem not_isNameChar {c : Char} (h : isNameChar c = true) :
    c ∉ ['<', '>', '/', '!', '?', '=', '"', '\'', ' ', '\t', '\n', '\r'] := by
  intro hc
  simp only [List.mem_cons, List.not_mem_nil, or_false] at hc
  rcases hc with rfl | rfl | rfl | rfl | rfl | rfl | rfl | rfl | rfl | rfl | rfl | rfl <;>
    exact absurd h (by decide)

theorem isSpace_of_isNameChar {c : Char} (h : isNameChar c = true) : isSpace c = false := by
  have := not_isNameChar h
  simp only [List.mem_cons, not_or] at this
  simp [isSpace, this]

theorem exists_cons_of_isName {s : String} (h : isName s = true) : ∃ c cs, s.toList = c :: cs := by
  unfold isName at h
  split at h
  · cases h
  · next c cs hs => exact ⟨c, cs, hs⟩

/-! ## The extent of a tag -/

/-- Characters that are neither quotes nor the end of a tag. -/
theorem splitTag_plain {p : List Char} (hp : ∀ c ∈ p, c ≠ '>' ∧ c ≠ '"' ∧ c ≠ '\'') (s : List Char) :
    Token.splitTag none (p ++ s) = (Token.splitTag none s).map fun r => (p ++ r.1, r.2) := by
  induction p with
  | nil => cases h : Token.splitTag none s <;> simp [Except.map, h]
  | cons c p ih =>
    rw [List.forall_mem_cons] at hp
    obtain ⟨⟨hgt, hdouble, hsingle⟩, hp⟩ := hp
    rw [List.cons_append, Token.splitTag]
    simp only [hgt, hdouble, hsingle, or_self, if_false, ih hp]
    cases Token.splitTag none s <;> rfl

/-- Characters within quotes. -/
theorem splitTag_quoted {v : List Char} (hv : '"' ∉ v) (s : List Char) :
    Token.splitTag (some '"') (v ++ '"' :: s) =
      (Token.splitTag none s).map fun r => (v ++ '"' :: r.1, r.2) := by
  induction v with
  | nil =>
    rw [List.nil_append, Token.splitTag]
    simp
  | cons c v ih =>
    rw [List.mem_cons, not_or] at hv
    rw [List.cons_append, Token.splitTag]
    simp only [Ne.symm hv.1, if_false, ih hv.2]
    cases Token.splitTag none s <;> rfl

/-- An attribute as it is written. -/
def attributeChars (a : Attribute) : List Char :=
  ' ' :: (a.1.toList ++ '=' :: '"' :: ((escape escapedInAttribute a.2).toList ++ ['"']))

theorem toList_attributeMarkup (tag : Element) :
    tag.attributeMarkup.toList = tag.attributes.flatMap attributeChars := by
  rw [Element.attributeMarkup, String.toList_join, List.flatMap_map]
  congr 1
  funext ⟨key, value⟩
  simp [attributeChars]

theorem splitTag_attributeChars {a : Attribute} (h : isName a.1 = true) (s : List Char) :
    Token.splitTag none (attributeChars a ++ s) =
      (Token.splitTag none s).map fun r => (attributeChars a ++ r.1, r.2) := by
  have hsplit : attributeChars a ++ s = (' ' :: (a.1.toList ++ ['='])) ++
      '"' :: ((escape escapedInAttribute a.2).toList ++ '"' :: s) := by
    simp [attributeChars]
  rw [hsplit, splitTag_plain, Token.splitTag]
  · simp only [show ¬ ('"' = '>') by decide, if_false, true_or, if_true,
      splitTag_quoted (quote_not_mem_escape a.2)]
    cases Token.splitTag none s <;> simp [Except.map, attributeChars]
  · simp only [List.forall_mem_cons, List.forall_mem_append]
    refine ⟨by decide, fun c hc => ?_, by decide, by simp⟩
    have := not_isNameChar (isNameChar_of_mem h c hc)
    simp only [List.mem_cons, not_or] at this
    simp [this]

/-- A tag reaches as far as it was written. -/
theorem splitTag_attributes {attributes : List Attribute} (h : ∀ a ∈ attributes, isName a.1 = true)
    (s : List Char) :
    Token.splitTag none (attributes.flatMap attributeChars ++ s) =
      (Token.splitTag none s).map fun r => (attributes.flatMap attributeChars ++ r.1, r.2) := by
  induction attributes with
  | nil => cases h : Token.splitTag none s <;> simp [Except.map, h]
  | cons a attributes ih =>
    rw [List.forall_mem_cons] at h
    rw [List.flatMap_cons, List.append_assoc, splitTag_attributeChars h.1, ih h.2]
    cases Token.splitTag none s <;> simp [Except.map]

/-! ## Attributes -/

theorem splitKey_name {s : String} (h : isName s = true) (rest : List Char) :
    splitKey (s.toList ++ '=' :: rest) = (s.toList, '=' :: rest) := by
  obtain ⟨c, cs, hs⟩ := exists_cons_of_isName h
  have hcs : ∀ x ∈ cs, (!(x == '=' || isSpace x)) = true := by
    intro x hx
    have hx := isNameChar_of_mem h x (by rw [hs]; exact List.mem_cons_of_mem _ hx)
    have hne : x ≠ '=' := by rintro rfl; exact absurd hx (by decide)
    simp [hne, isSpace_of_isNameChar hx]
  rw [hs, List.cons_append, splitKey]
  simp only [Prod.mk.injEq]
  rw [List.takeWhile_append_of_pos hcs, List.dropWhile_append_of_pos hcs]
  simp

/-- A value is read as it was written. -/
theorem readValue_escape (position : Nat) (value : String) (rest : List Char) :
    ∃ next, readValue position ('"' :: ((escape escapedInAttribute value).toList ++ '"' :: rest)) =
      .ok (value, next, rest) := by
  have hv : ∀ c ∈ (escape escapedInAttribute value).toList, decide (c ≠ '"') = true := by
    intro c hc
    simpa using fun he : c = '"' => quote_not_mem_escape value (he ▸ hc)
  unfold readValue skipSpaces
  simp only [show ('"' :: ((escape escapedInAttribute value).toList ++ '"' :: rest)).dropWhile isSpace =
    '"' :: ((escape escapedInAttribute value).toList ++ '"' :: rest) from rfl, true_or, if_true]
  rw [List.takeWhile_append_of_pos hv, List.dropWhile_append_of_pos hv]
  simp [attributeValue_escape]

theorem readAttribute_written {seen : List (List Char × Nat)} {a : Attribute} (h : isName a.1 = true)
    (hseen : seen.lookup a.1.toList = none) (position : Nat) (rest : List Char) :
    ∃ next, readAttribute seen position
        (a.1.toList ++ '=' :: '"' :: ((escape escapedInAttribute a.2).toList ++ '"' :: rest)) =
      .ok ⟨a.1.toList, a.2, position, next, rest⟩ := by
  obtain ⟨next, hvalue⟩ := readValue_escape (position + byteLength a.1.toList + 1) a.2 rest
  refine ⟨next, ?_⟩
  have hskip : ∀ tail, skipSpaces (position + byteLength a.1.toList) ('=' :: tail) =
      (position + byteLength a.1.toList, '=' :: tail) := fun _ => rfl
  simp only [readAttribute, splitKey_name h, hskip, hseen, hvalue]
  rfl

theorem readAttributes_written {seen : List (List Char × Nat)} {attributes : List Attribute}
    (hnames : ∀ a ∈ attributes, isName a.1 = true) (hnodup : (attributes.map Prod.fst).Nodup)
    (hseen : ∀ a ∈ attributes, seen.lookup a.1.toList = none) (position : Nat) :
    readAttributes seen position (attributes.flatMap attributeChars) = .ok attributes := by
  induction attributes generalizing seen position with
  | nil =>
    unfold readAttributes
    rfl
  | cons a attributes ih =>
    rw [List.forall_mem_cons] at hnames hseen
    rw [List.map_cons, List.nodup_cons] at hnodup
    obtain ⟨c, cs, hs⟩ := exists_cons_of_isName hnames.1
    obtain ⟨next, hread⟩ := readAttribute_written hnames.1 hseen.1 (position + 1)
      (attributes.flatMap attributeChars)
    have hskip : skipSpaces position ((a :: attributes).flatMap attributeChars) = (position + 1, a.1.toList ++
        '=' :: '"' :: ((escape escapedInAttribute a.2).toList ++ '"' :: attributes.flatMap attributeChars)) := by
      have hc : isSpace c = false := isSpace_of_isNameChar (isNameChar_of_mem hnames.1 c (by rw [hs]; simp))
      simp [skipSpaces, attributeChars, hs, hc, show isSpace ' ' = true from rfl]
    have hrest : readAttributes ((a.1.toList, position + 1) :: seen) next
        (attributes.flatMap attributeChars) = .ok attributes := by
      refine ih hnames.2 hnodup.2 (fun b hb => ?_) next
      have hne : b.1.toList ≠ a.1.toList := fun he =>
        hnodup.1 (String.toList_inj.mp he ▸ List.mem_map_of_mem hb)
      rw [List.lookup_cons, beq_eq_false_iff_ne.mpr hne]
      exact hseen.2 b hb
    unfold readAttributes
    split
    · next heq => rw [hskip, hs] at heq; cases heq
    · next here x xs heq =>
      rw [hskip] at heq
      obtain ⟨rfl, hxs⟩ := Prod.mk.inj heq
      rw [← hxs]
      split
      · next e he => rw [hread] at he; cases he
      · next r he =>
        rw [hread] at he
        cases he
        rw [hrest]
        simp [Except.map]

/-! ## Tags -/

theorem dropTail?_append (c : Char) (s : List Char) : Text.dropTail? [c] (s ++ [c]) = some s := by
  rw [Text.dropTail?, List.reverse_append]
  show (if c == c then some s.reverse else none).map List.reverse = some s
  simp

theorem dropTail?_eq_none {c x : Char} (h : x ≠ c) (s : List Char) :
    Text.dropTail? [c] (s ++ [x]) = none := by
  rw [Text.dropTail?, List.reverse_append]
  show (if c == x then some s.reverse else none).map List.reverse = none
  simp [Ne.symm h]

section Tag

variable {tag : Element} (h : tag.IsRegular)
include h

theorem readTag_written : readTag (tag.name.toList ++ tag.attributeMarkup.toList) = .ok tag := by
  have hname : ∀ c ∈ tag.name.toList, (!isSpace c) = true := fun c hc => by
    simp [isSpace_of_isNameChar (isNameChar_of_mem h.isName c hc)]
  have hmarkup : tag.attributeMarkup.toList = [] ∨ ∃ rest, tag.attributeMarkup.toList = ' ' :: rest := by
    rw [toList_attributeMarkup]
    cases tag.attributes with
    | nil => exact .inl rfl
    | cons a attributes => exact .inr ⟨_, rfl⟩
  have htake : (tag.name.toList ++ tag.attributeMarkup.toList).takeWhile (!isSpace ·) = tag.name.toList := by
    rw [List.takeWhile_append_of_pos hname]
    rcases hmarkup with he | ⟨rest, he⟩ <;> simp [he, show isSpace ' ' = true from rfl]
  have hdrop : (tag.name.toList ++ tag.attributeMarkup.toList).dropWhile (!isSpace ·) =
      tag.attributes.flatMap attributeChars := by
    rw [List.dropWhile_append_of_pos hname, ← toList_attributeMarkup]
    rcases hmarkup with he | ⟨rest, he⟩ <;> simp [he, show isSpace ' ' = true from rfl]
  rw [readTag, htake, hdrop, readAttributes_written h.isName_key h.nodup_keys fun _ _ => rfl]
  simp [Except.map]

theorem splitTag_written {close : List Char} (hclose : ∀ c ∈ close, c = '/') (rest : List Char) :
    Token.splitTag none (tag.name.toList ++ (tag.attributeMarkup.toList ++ (close ++ '>' :: rest))) =
      .ok (tag.name.toList ++ (tag.attributeMarkup.toList ++ close), rest) := by
  rw [splitTag_plain, toList_attributeMarkup, splitTag_attributes h.isName_key, splitTag_plain]
  · simp [Token.splitTag, Except.map]
  · intro c hc
    rw [hclose c hc]
    decide
  · intro c hc
    have := not_isNameChar (isNameChar_of_mem h.isName c hc)
    simp only [List.mem_cons, not_or] at this
    simp [this]

/-- The last character of what a tag says is no slash. -/
theorem exists_last_written : ∃ p x, tag.name.toList ++ tag.attributeMarkup.toList = p ++ [x] ∧ x ≠ '/' := by
  rw [toList_attributeMarkup]
  rcases List.eq_nil_or_concat tag.attributes with he | ⟨attributes, a, he⟩
  · obtain ⟨c, cs, hs⟩ := exists_cons_of_isName h.isName
    have hne : tag.name.toList ≠ [] := by rw [hs]; simp
    refine ⟨tag.name.toList.dropLast, tag.name.toList.getLast hne, by
      rw [he, List.dropLast_concat_getLast]; simp, fun heq => ?_⟩
    exact absurd (heq ▸ isNameChar_of_mem h.isName _ (List.getLast_mem hne)) (by decide)
  · refine ⟨tag.name.toList ++ (attributes.flatMap attributeChars ++ ' ' :: (a.1.toList ++ '=' :: '"' ::
      (escape escapedInAttribute a.2).toList)), '"', ?_, by decide⟩
    rw [he]
    simp [attributeChars]

omit h in
theorem next?_tag {c : Char} (hc : isNameChar c = true) (s : List Char) :
    Token.next? ('<' :: c :: s) = some (Token.tag Token.readStart (c :: s)) := by
  have := not_isNameChar hc
  simp only [List.mem_cons, not_or] at this
  unfold Token.next?
  split
  · next heq => cases heq
  · next heq => simp_all
  · next heq => simp_all
  · next heq => simp_all
  · next heq => simp_all
  · next heq => simp_all
  · next heq =>
    cases heq
    rfl
  · next heq => cases heq
  · next hlt _ heq =>
    cases heq
    exact absurd rfl hlt

theorem tokens_tag (close : List Char) (hclose : ∀ c ∈ close, c = '/') (rest : List Char) :
    tokens ('<' :: (tag.name.toList ++ (tag.attributeMarkup.toList ++ (close ++ '>' :: rest)))) =
      Token.readStart (tag.name.toList ++ (tag.attributeMarkup.toList ++ close)) :: tokens rest := by
  obtain ⟨c, cs, hs⟩ := exists_cons_of_isName h.isName
  have hc := isNameChar_of_mem h.isName c (by rw [hs]; exact List.mem_cons_self ..)
  have hsplit := splitTag_written h hclose rest
  rw [hs, List.cons_append] at hsplit ⊢
  have hnext := next?_tag hc (cs ++ (tag.attributeMarkup.toList ++ (close ++ '>' :: rest)))
  rw [Token.tag, hsplit] at hnext
  rw [tokens_eq hnext]
  rfl

/-- The start tag of an element. -/
theorem tokens_startTag (rest : List Char) :
    tokens ('<' :: (tag.name.toList ++ (tag.attributeMarkup.toList ++ '>' :: rest))) =
      .startTag tag false :: tokens rest := by
  have htokens := tokens_tag h [] (by simp) rest
  obtain ⟨p, x, hp, hx⟩ := exists_last_written h
  rw [List.nil_append, List.append_nil, Token.readStart, hp, dropTail?_eq_none hx, ← hp] at htokens
  rw [htokens]
  simp only [readTag_written h]

/-- The tag of an element without children. -/
theorem tokens_emptyTag (rest : List Char) :
    tokens ('<' :: (tag.name.toList ++ (tag.attributeMarkup.toList ++ '/' :: '>' :: rest))) =
      .startTag tag true :: tokens rest := by
  have htokens := tokens_tag h ['/'] (by simp) rest
  rw [← List.append_assoc _ _ ['/'], Token.readStart, dropTail?_append] at htokens
  exact htokens.trans (by simp only [readTag_written h])

end Tag

/-- An end tag. -/
theorem tokens_endTag {name : String} (h : isName name = true) (rest : List Char) :
    tokens ('<' :: '/' :: (name.toList ++ '>' :: rest)) = .endTag name :: tokens rest := by
  have hplain : ∀ c ∈ name.toList, c ≠ '>' ∧ c ≠ '"' ∧ c ≠ '\'' := by
    intro c hc
    have := not_isNameChar (isNameChar_of_mem h c hc)
    simp only [List.mem_cons, not_or] at this
    simp [this]
  have hsplit : Token.splitTag none (name.toList ++ '>' :: rest) = .ok (name.toList, rest) := by
    rw [splitTag_plain hplain]
    simp [Token.splitTag, Except.map]
  have hspace : Text.dropEndWhile isSpace name.toList = name.toList :=
    Text.dropEndWhile_eq_self_iff.mpr fun c hc =>
      isSpace_of_isNameChar (isNameChar_of_mem h c (List.mem_of_getLast? hc))
  have hnext : Token.next? ('<' :: '/' :: (name.toList ++ '>' :: rest)) =
      some (some (.endTag name), rest) := by
    show some (Token.tag Token.readEnd (name.toList ++ '>' :: rest)) = _
    rw [Token.tag, hsplit]
    simp only [Token.readEnd, hspace, String.ofList_toList]
  rw [tokens_eq hnext]
  rfl

end WordTemplate.Xml
