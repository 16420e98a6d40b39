/-!
# White space

Which characters count as blank, and trimming them. The class is Unicode's `White_Space` property,
so the no-break spaces belong to it and the zero width space (U+200B) does not.
-/

namespace WordTemplate.Text

/-- The characters with Unicode's `White_Space` property. -/
def isBlank (c : Char) : Bool :=
  let n := c.toNat
  (0x09 ≤ n && n ≤ 0x0D) || n == 0x20 || n == 0x85 || n == 0xA0 || n == 0x1680 ||
    (0x2000 ≤ n && n ≤ 0x200A) || n == 0x2028 || n == 0x2029 || n == 0x202F || n == 0x205F ||
    n == 0x3000

/-- Every character that core calls white space is blank here. -/
theorem isBlank_of_isWhitespace {c : Char} (h : c.isWhitespace = true) : isBlank c = true := by
  simp only [Char.isWhitespace, Bool.or_eq_true, decide_eq_true_eq] at h
  rcases h with ((rfl | rfl) | rfl) | rfl <;> decide

/-- `s` without the characters at its end that satisfy `drop`. -/
def dropEndWhile (drop : Char → Bool) (s : List Char) : List Char :=
  (s.reverse.dropWhile drop).reverse

/-- `s` without the blanks at both ends. -/
def trim (s : List Char) : List Char :=
  dropEndWhile isBlank (s.dropWhile isBlank)

/-- Whether `s` holds nothing but blanks. -/
def isBlankText (s : String) : Bool :=
  s.toList.all isBlank

/-! ## Texts that stay as they are -/

theorem dropWhile_eq_self_iff {drop : Char → Bool} {s : List Char} :
    s.dropWhile drop = s ↔ ∀ c ∈ s.head?, drop c = false := by
  cases s with
  | nil => simp
  | cons c cs =>
    rw [List.head?_cons, List.dropWhile_cons]
    split
    · next hdrop =>
      refine iff_of_false (fun h => ?_) (by simp [hdrop])
      have := (List.dropWhile_suffix (p := drop) (l := cs)).length_le
      rw [h, List.length_cons] at this
      omega
    · next hdrop => simpa using hdrop

theorem dropEndWhile_eq_self_iff {drop : Char → Bool} {s : List Char} :
    dropEndWhile drop s = s ↔ ∀ c ∈ s.getLast?, drop c = false := by
  rw [dropEndWhile, List.reverse_eq_iff, dropWhile_eq_self_iff, List.head?_reverse]

/-- A text is trimmed if it has no blank at either end. -/
theorem trim_eq_self_iff {s : List Char} :
    trim s = s ↔ (∀ c ∈ s.head?, isBlank c = false) ∧ ∀ c ∈ s.getLast?, isBlank c = false := by
  rw [← dropWhile_eq_self_iff, ← dropEndWhile_eq_self_iff, trim]
  constructor
  · intro h
    -- Neither side can have lost a character.
    have hback := (List.dropWhile_suffix (p := isBlank) (l := (s.dropWhile isBlank).reverse)).length_le
    have hlength := congrArg List.length h
    rw [dropEndWhile, List.length_reverse] at hlength
    rw [hlength, List.length_reverse] at hback
    have hfront : s.dropWhile isBlank = s := (List.dropWhile_suffix (p := isBlank)).eq_of_length_le hback
    rw [hfront] at h
    exact ⟨hfront, h⟩
  · rintro ⟨hfront, hback⟩
    rw [hfront, hback]

end WordTemplate.Text
