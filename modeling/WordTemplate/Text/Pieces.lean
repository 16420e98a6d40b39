/-!
# Cutting text into pieces

Cutting at every occurrence of a character (`pieces`), at the first occurrence of a text (`cut?`)
and at the last occurrence of a character (`cutLast?`). Text is a list of characters here.

* `joinWith_pieces`: the pieces, joined again, are the text.
* `eq_append_of_cut?`: the two sides of a cut with the mark between them are the text.
-/

namespace WordTemplate.Text

/-- The pieces between the occurrences of `sep`; a text without `sep` is one piece. -/
def pieces (sep : Char) : List Char → List (List Char)
  | [] => [[]]
  | c :: cs =>
    if c = sep then [] :: pieces sep cs
    else match pieces sep cs with
      | [] => [[c]]
      | p :: ps => (c :: p) :: ps

/-- The pieces one after another, with `sep` between neighbours. -/
def joinWith (sep : List Char) : List (List Char) → List Char
  | [] => []
  | [p] => p
  | p :: q :: ps => p ++ sep ++ joinWith sep (q :: ps)

theorem pieces_ne_nil (sep : Char) (s : List Char) : pieces sep s ≠ [] := by
  cases s with
  | nil => simp [pieces]
  | cons c cs =>
    unfold pieces
    split
    · simp
    · split <;> simp

theorem joinWith_pieces (sep : Char) (s : List Char) : joinWith [sep] (pieces sep s) = s := by
  induction s with
  | nil => rfl
  | cons c cs ih =>
    unfold pieces
    split
    · next h =>
      cases hp : pieces sep cs with
      | nil => exact absurd hp (pieces_ne_nil sep cs)
      | cons p ps => rw [hp] at ih; simp [joinWith, ih, h]
    · cases hp : pieces sep cs with
      | nil => exact absurd hp (pieces_ne_nil sep cs)
      | cons p ps =>
        rw [hp] at ih
        cases ps with
        | nil => simpa [joinWith] using ih
        | cons q qs => simpa [joinWith] using ih

/-- The text before and after the first occurrence of `mark`. -/
def cut? (mark : List Char) : List Char → Option (List Char × List Char)
  | [] => if mark.isEmpty then some ([], []) else none
  | c :: cs =>
    match mark.isPrefixOf? (c :: cs) with
    | some after => some ([], after)
    | none => (cut? mark cs).map fun (before, after) => (c :: before, after)

theorem eq_append_of_isPrefixOf? {mark s after : List Char} (h : mark.isPrefixOf? s = some after) :
    s = mark ++ after := by
  induction mark generalizing s with
  | nil => exact Option.some.inj h
  | cons m ms ih =>
    cases s with
    | nil => change none = some after at h; simp at h
    | cons c cs =>
      change (if m == c then ms.isPrefixOf? cs else none) = some after at h
      split at h
      · next hm => rw [ih h, beq_iff_eq.mp hm]; rfl
      · simp at h

/-- A text in front is taken off again. -/
theorem isPrefixOf?_append (mark rest : List Char) : mark.isPrefixOf? (mark ++ rest) = some rest := by
  induction mark with
  | nil => rfl
  | cons m mark ih =>
    show (if m == m then mark.isPrefixOf? (mark ++ rest) else none) = some rest
    simp [ih]

theorem eq_append_of_cut? {mark s before after : List Char}
    (h : cut? mark s = some (before, after)) : s = before ++ mark ++ after := by
  induction s generalizing before with
  | nil =>
    unfold cut? at h
    split at h <;> simp_all
  | cons c cs ih =>
    unfold cut? at h
    split at h
    · next hp =>
      cases h
      exact eq_append_of_isPrefixOf? hp
    · obtain ⟨⟨b, a⟩, hc, he⟩ := Option.map_eq_some_iff.mp h
      cases he
      simp [ih hc]

/-- A text is cut at a mark if no other one begins before it. -/
theorem cut?_append {mark s : List Char} (rest : List Char) (hne : mark ≠ []) (h : ¬ mark <:+: s ++ mark.dropLast) :
    cut? mark (s ++ (mark ++ rest)) = some (s, rest) := by
  induction s with
  | nil =>
    obtain ⟨m, ms, rfl⟩ := List.exists_cons_of_ne_nil hne
    rw [List.nil_append, List.cons_append, cut?, ← List.cons_append, isPrefixOf?_append]
  | cons c s ih =>
    have hprefix : mark.isPrefixOf? (c :: (s ++ (mark ++ rest))) = none := by
      refine Option.eq_none_iff_forall_ne_some.mpr fun after hafter => h ?_
      have heq : (c :: s ++ mark.dropLast) ++ (mark.getLast hne :: rest) = mark ++ after := by
        rw [← eq_append_of_isPrefixOf? hafter, List.append_assoc,
          List.append_cons mark.dropLast, List.dropLast_concat_getLast]
        rfl
      refine (List.prefix_of_prefix_length_le ⟨after, rfl⟩ ⟨_, heq⟩ ?_).isInfix
      rw [List.length_append, List.length_dropLast, List.length_cons]
      omega
    rw [List.cons_append, cut?, hprefix, ih fun hin => h (hin.trans (List.suffix_cons ..).isInfix)]
    rfl

theorem length_le_of_cut? {mark s before after : List Char}
    (h : cut? mark s = some (before, after)) : after.length ≤ s.length := by
  rw [eq_append_of_cut? h, List.length_append]
  omega

/-- The text before and after the last occurrence of `sep`. -/
def cutLast? (sep : Char) : List Char → Option (List Char × List Char)
  | [] => none
  | c :: cs =>
    match cutLast? sep cs with
    | some (before, after) => some (c :: before, after)
    | none => if c = sep then some ([], cs) else none

/-- Whether `tail` ends `s`; what comes before it. -/
def dropTail? (tail s : List Char) : Option (List Char) :=
  (tail.reverse.isPrefixOf? s.reverse).map List.reverse

theorem dropTail?_append (s tail : List Char) : dropTail? tail (s ++ tail) = some s := by
  rw [dropTail?, List.reverse_append, isPrefixOf?_append, Option.map_some, List.reverse_reverse]

end WordTemplate.Text
