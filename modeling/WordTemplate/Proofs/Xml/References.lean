import WordTemplate.Xml.Markup
import WordTemplate.Xml.Token

/-!
# Reading what is written as references

Some characters are written as references, others where there is text and where there are attribute
values. Reading gives the characters back. In a text this cuts the text into pieces.

* `attributeValue_escape`: an attribute value.
* `exists_tokens_escape`: a text, with the pieces that it is read in.
-/

namespace WordTemplate.Xml

/-! ## Characters -/

/-- A character as it is written. -/
def writtenChar (escaped : Char → Option String) (c : Char) : List Char :=
  ((escaped c).map String.toList).getD [c]

theorem toList_escape (escaped : Char → Option String) (s : String) :
    (escape escaped s).toList = s.toList.flatMap (writtenChar escaped) := by
  rw [escape, String.toList_ofList]
  rfl

theorem writtenChar_of_none {escaped : Char → Option String} {c : Char} (h : escaped c = none) :
    writtenChar escaped c = [c] := by
  rw [writtenChar, h]
  rfl

/-! ## Attribute values -/

theorem resolveReferences?_writtenChar (c : Char) (rest : List Char) :
    resolveReferences? none (writtenChar escapedInAttribute c ++ rest) =
      (resolveReferences? none rest).map (c :: ·) := by
  unfold writtenChar escapedInAttribute escapedInText
  split
  · simp [resolveReferences?, attributeReference?, namedCharacter?]
  · simp [resolveReferences?, attributeReference?, namedCharacter?]
  · split
    · simp [resolveReferences?, attributeReference?, namedCharacter?]
    · simp [resolveReferences?, attributeReference?, namedCharacter?]
    · simp [resolveReferences?, attributeReference?, namedCharacter?]
    · next h _ _ => simp [resolveReferences?, show c ≠ '&' from h]

theorem resolveReferences?_written (s : List Char) :
    resolveReferences? none (s.flatMap (writtenChar escapedInAttribute)) = some s := by
  induction s with
  | nil => rfl
  | cons c s ih => rw [List.flatMap_cons, resolveReferences?_writtenChar, ih, Option.map_some]

/-- An attribute value is read as it was written. -/
theorem attributeValue_escape (value : String) :
    attributeValue (escape escapedInAttribute value).toList = value := by
  rw [attributeValue, toList_escape, resolveReferences?_written, Option.getD_some, String.ofList_toList]

/-- The quote that ends an attribute value is not written in it. -/
theorem quote_not_mem_escape (value : String) :
    '"' ∉ (escape escapedInAttribute value).toList := by
  rw [toList_escape, List.mem_flatMap]
  rintro ⟨c, -, hc⟩
  unfold writtenChar escapedInAttribute escapedInText at hc
  split at hc
  · simp at hc
  · simp at hc
  · next hq _ =>
    split at hc
    · simp at hc
    · simp at hc
    · simp at hc
    · exact hq (List.mem_singleton.mp hc).symm

/-! ## Character data -/

theorem tokens_eq {s rest : List Char} {token : Option Token}
    (h : Token.next? s = some (token, rest)) : tokens s = token.toList ++ tokens rest := by
  rw [tokens]
  split
  · next hn => rw [h] at hn; cases hn
  · next hn => rw [h] at hn; cases hn; rfl

@[simp] theorem tokens_nil : tokens [] = [] := by
  rw [tokens]
  rfl

/-- Whether character data ends in front of `s`: there is markup or nothing. -/
def EndsText (s : List Char) : Prop :=
  ∀ c ∈ s.head?, Token.isSpecial c = true

theorem next?_of_not_special {c : Char} {s : List Char} (h : Token.isSpecial c = false) :
    Token.next? (c :: s) = some (some (.text (String.ofList (c :: s.takeWhile (!Token.isSpecial ·)))),
      s.dropWhile (!Token.isSpecial ·)) := by
  have hlt : c ≠ '<' := by
    rintro rfl
    cases h
  have hamp : c ≠ '&' := by
    rintro rfl
    cases h
  unfold Token.next?
  split <;> simp_all

/-- Plain characters are one piece of text. -/
theorem tokens_plain {p rest : List Char} (hne : p ≠ []) (hp : ∀ c ∈ p, Token.isSpecial c = false)
    (hrest : EndsText rest) :
    tokens (p ++ rest) = .text (String.ofList p) :: tokens rest := by
  cases p with
  | nil => exact absurd rfl hne
  | cons c p =>
    rw [List.forall_mem_cons] at hp
    obtain ⟨hc, hp⟩ := hp
    have htake : (p ++ rest).takeWhile (!Token.isSpecial ·) = p := by
      rw [List.takeWhile_append_of_pos (by simpa using hp)]
      cases rest with
      | nil => simp
      | cons x xs => rw [List.takeWhile_cons_of_neg (by simp [hrest x rfl]), List.append_nil]
    have hdrop : (p ++ rest).dropWhile (!Token.isSpecial ·) = rest := by
      have := List.takeWhile_append_dropWhile (p := (!Token.isSpecial ·)) (l := p ++ rest)
      rw [htake] at this
      exact List.append_cancel_left this
    have hnext : Token.next? (c :: (p ++ rest)) =
        some (some (.text (String.ofList (c :: p))), rest) := by
      rw [next?_of_not_special hc, htake, hdrop]
    rw [List.cons_append, tokens_eq hnext]
    rfl

/-- A reference is one piece of text. -/
theorem tokens_reference {rest : List Char} {c : Char} (body : List Char)
    (hbody : body.all (fun x => x != ';' && x != '&' && x != '<') = true) (hc : textReference? body = some c) :
    tokens ('&' :: (body ++ ';' :: rest)) = .text (String.ofList [c]) :: tokens rest := by
  have hnext : Token.next? ('&' :: (body ++ ';' :: rest)) =
      some (some (.text (String.ofList [c])), rest) := by
    unfold Token.next? Token.reference
    simp [List.takeWhile_append_of_pos (List.all_eq_true.mp hbody), hc]
  rw [tokens_eq hnext]
  rfl

/-- A character that is written as a reference. -/
theorem tokens_writtenChar {c : Char} (h : escapedInText c ≠ none) (rest : List Char) :
    tokens (writtenChar escapedInText c ++ rest) = .text (String.ofList [c]) :: tokens rest := by
  unfold escapedInText at h
  split at h
  · exact tokens_reference "amp".toList (by decide) (by decide)
  · exact tokens_reference "lt".toList (by decide) (by decide)
  · exact tokens_reference "gt".toList (by decide) (by decide)
  · exact absurd rfl h

theorem isSpecial_of_escapedInText {c : Char} (h : escapedInText c = none) :
    Token.isSpecial c = false := by
  unfold escapedInText at h
  split at h <;> simp_all [Token.isSpecial]

theorem endsText_written {l rest : List Char} {c : Char} (hc : escapedInText c ≠ none) :
    EndsText (writtenChar escapedInText c ++ (l ++ rest)) := by
  unfold escapedInText at hc
  split at hc
  all_goals first
    | exact absurd rfl hc
    | rintro x ⟨⟩
      rfl

/-- Pieces of character data. -/
def textTokens (pieces : List (List Char)) : List Token :=
  pieces.map fun piece => .text (String.ofList piece)

/-- A text is read in pieces that are the text together. -/
theorem exists_tokens_escape (s : String) {rest : List Char} (hrest : EndsText rest) :
    ∃ pieces : List (List Char), tokens ((escape escapedInText s).toList ++ rest) =
      textTokens pieces ++ tokens rest ∧ pieces.flatten = s.toList := by
  rw [toList_escape]
  -- In front of what is still to be read stand plain characters of the same piece.
  suffices key : ∀ l p : List Char, (∀ c ∈ p, Token.isSpecial c = false) →
      ∃ pieces : List (List Char), tokens (p ++ (l.flatMap (writtenChar escapedInText) ++ rest)) =
        textTokens pieces ++ tokens rest ∧ pieces.flatten = p ++ l from
    key s.toList [] (by simp)
  intro l
  induction l with
  | nil =>
    intro p hp
    by_cases hne : p = []
    · exact ⟨[], by simp [hne, textTokens], by simp [hne]⟩
    · exact ⟨[p], tokens_plain hne hp hrest, by simp⟩
  | cons c l ih =>
    intro p hp
    by_cases hc : escapedInText c = none
    · obtain ⟨pieces, htokens, hjoin⟩ := ih (p ++ [c]) (by
        rw [List.forall_mem_append, List.forall_mem_singleton]
        exact ⟨hp, isSpecial_of_escapedInText hc⟩)
      refine ⟨pieces, ?_, by rw [hjoin, List.append_assoc]; rfl⟩
      rw [← htokens, List.flatMap_cons, writtenChar_of_none hc]
      simp
    · obtain ⟨pieces, htokens, hjoin⟩ := ih [] (by simp)
      rw [List.nil_append] at htokens
      have hwritten : tokens ((c :: l).flatMap (writtenChar escapedInText) ++ rest) =
          textTokens ([c] :: pieces) ++ tokens rest := by
        rw [List.flatMap_cons, List.append_assoc, tokens_writtenChar hc, htokens]
        rfl
      by_cases hne : p = []
      · exact ⟨[c] :: pieces, by rw [hne, List.nil_append, hwritten], by simp [hne, hjoin]⟩
      · refine ⟨p :: [c] :: pieces, ?_, by simp [hjoin]⟩
        rw [tokens_plain hne hp, hwritten]
        · rfl
        · rw [List.flatMap_cons, List.append_assoc]
          exact endsText_written hc

end WordTemplate.Xml
