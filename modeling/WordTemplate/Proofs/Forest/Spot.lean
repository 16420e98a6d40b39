import Mathlib.Tactic.Common
import WordTemplate.Forest

/-!
# Spots in a forest

A spot is a place where a forest can stand among siblings, below the nodes of a larger forest. It is
given by the nodes above it, nearest first, each with the trees on both sides of it. `wrap` puts a
forest into a spot, and every node of a forest is at a spot (`exists_wrap`).

Looking up and changing the node that a test finds happens at its spot: `treeAt_wrap`, `above?_wrap`
and `replace_wrap` say that what is around the spot plays no part as long as the test fails before
it.
-/

namespace WordTemplate.Forest

variable {α : Type u}

/-- A node above a spot, with the trees before and after it. -/
structure Frame (α : Type u) where
  before : Forest α
  value : α
  after : Forest α

/-- `f` in the spot below `up`. -/
def wrap : List (Frame α) → Forest α → Forest α
  | [], f => f
  | fr :: up, f => wrap up (fr.before ++ cons fr.value f fr.after)

/-- The spot at the top, with nothing above it. -/
theorem eq_wrap_nil {f g : Forest α} (h : f = g) : f = wrap [] g := h

/-- The values before a spot in document order, those above it among them. -/
def opening : List (Frame α) → List α
  | [] => []
  | fr :: up => opening up ++ (fr.before.toList ++ [fr.value])

/-- The values after a spot in document order. -/
def closing : List (Frame α) → List α
  | [] => []
  | fr :: up => fr.after.toList ++ closing up

theorem toList_tree (a : α) (cs : Forest α) : (tree a cs).toList = a :: cs.toList := by
  simp [tree, toList]

theorem toList_wrap (up : List (Frame α)) (f : Forest α) :
    (wrap up f).toList = opening up ++ (f.toList ++ closing up) := by
  induction up generalizing f with
  | nil => simp [wrap, opening, closing]
  | cons fr up ih => simp [wrap, opening, closing, ih, toList]

theorem wrap_append (inner outer : List (Frame α)) (f : Forest α) :
    wrap (inner ++ outer) f = wrap outer (wrap inner f) := by
  induction inner generalizing f with
  | nil => rfl
  | cons fr inner ih => exact ih _

theorem opening_append (inner outer : List (Frame α)) :
    opening (inner ++ outer) = opening outer ++ opening inner := by
  induction inner with
  | nil => simp [opening]
  | cons fr inner ih => simp [opening, ih]

/-- A spot behind one more tree. -/
theorem exists_wrap_cons (a : α) (cs : Forest α) (up : List (Frame α)) (l : Forest α) :
    ∃ up' l', (∀ f, cons a cs (wrap up (l ++ f)) = wrap up' (l' ++ f)) ∧
      ∀ fr' ∈ up', ∃ fr ∈ up, fr'.value = fr.value := by
  rcases List.eq_nil_or_concat up with rfl | ⟨inner, fr, rfl⟩
  · exact ⟨[], cons a cs l, fun _ => rfl, by simp⟩
  · rw [List.concat_eq_append]
    refine ⟨inner ++ [⟨cons a cs fr.before, fr.value, fr.after⟩], l, fun f => ?_, fun fr' hfr' => ?_⟩
    · simp [wrap_append, wrap]
    · rcases List.mem_append.mp hfr' with h | h
      · exact ⟨fr', List.mem_append_left _ h, rfl⟩
      · obtain rfl : fr' = _ := by simpa using h
        exact ⟨fr, by simp, rfl⟩

/-- The labels above a spot, outermost first, come in document order. -/
theorem reverse_values_sublist_opening (up : List (Frame α)) :
    List.Sublist (up.map Frame.value).reverse (opening up) := by
  induction up with
  | nil => exact List.Sublist.refl _
  | cons fr up ih =>
    rw [List.map_cons, List.reverse_cons, opening]
    exact ih.append (List.sublist_append_right _ _)

theorem value_mem_opening {up : List (Frame α)} {fr : Frame α} (h : fr ∈ up) :
    fr.value ∈ opening up :=
  (reverse_values_sublist_opening up).subset (List.mem_reverse.mpr (List.mem_map_of_mem h))

/-! ## Tests on the parts of a forest -/

theorem any_eq_toList (p : α → Bool) (f : Forest α) : f.any p = f.toList.any p := by
  induction f with
  | nil => rfl
  | cons a cs rest ihc ihr => simp [any, toList, ihc, ihr, Bool.or_assoc]

theorem any_iff {p : α → Bool} {f : Forest α} : f.any p = true ↔ ∃ a ∈ f.toList, p a = true := by
  rw [any_eq_toList, List.any_eq_true]

theorem any_eq_false_iff {p : α → Bool} {f : Forest α} :
    f.any p = false ↔ ∀ a ∈ f.toList, p a = false := by
  rw [any_eq_toList, List.any_eq_false]
  simp

theorem any_append (p : α → Bool) (f g : Forest α) : (f ++ g).any p = (f.any p || g.any p) := by
  simp [any_eq_toList]

theorem treeAt_eq_nil {p : α → Bool} {f : Forest α} (h : f.any p = false) : f.treeAt p = nil := by
  induction f with
  | nil => rfl
  | cons a cs rest ihc ihr =>
    simp only [any, Bool.or_eq_false_iff] at h
    simp [treeAt, h.1.1, ihc h.1.2, ihr h.2]

/-- Looking for a node, by what is in the children of the first tree. -/
theorem treeAt_cons (p : α → Bool) (a : α) (cs rest : Forest α) :
    (cons a cs rest).treeAt p =
      if p a then tree a cs else if cs.any p then cs.treeAt p else rest.treeAt p := by
  have key : ∀ f : Forest α, f.any p = true → f.treeAt p ≠ nil := by
    intro f hf
    induction f with
    | nil => simp [any] at hf
    | cons b bs f ihc ihr =>
      unfold treeAt
      by_cases hp : p b = true
      · simp [hp, tree]
      · rw [if_neg hp]
        by_cases hc : bs.any p = true
        · cases hcs : bs.treeAt p with
          | nil => exact absurd hcs (ihc hc)
          | cons => simp
        · rw [treeAt_eq_nil (by simpa using hc)]
          exact ihr (by simpa [any, hp, hc] using hf)
  conv_lhs => unfold treeAt
  by_cases hp : p a = true
  · simp [hp]
  · by_cases hc : cs.any p = true
    · cases hcs : cs.treeAt p with
      | nil => exact absurd hcs (key cs hc)
      | cons => simp [hp, hc]
    · simp [hp, hc, treeAt_eq_nil (show cs.any p = false by simpa using hc)]

theorem treeAt_append (p : α → Bool) (f g : Forest α) :
    (f ++ g).treeAt p = if f.any p then f.treeAt p else g.treeAt p := by
  induction f with
  | nil => simp [any]
  | cons a cs rest ihc ihr =>
    rw [cons_append, treeAt_cons, treeAt_cons, ihr]
    by_cases hp : p a = true <;> by_cases hc : cs.any p = true <;> simp [any, hp, hc]

theorem above?_eq_none {p : α → Bool} {f : Forest α} (h : f.any p = false) : f.above? p = none := by
  induction f with
  | nil => rfl
  | cons a cs rest ihc ihr =>
    simp only [any, Bool.or_eq_false_iff] at h
    simp [above?, h.1.1, ihc h.1.2, ihr h.2]

theorem above?_cons (p : α → Bool) (a : α) (cs rest : Forest α) :
    (cons a cs rest).above? p =
      if p a then some [] else if cs.any p then (cs.above? p).map (· ++ [a])
      else rest.above? p := by
  have key : ∀ f : Forest α, f.any p = true → f.above? p ≠ none := by
    intro f hf
    induction f with
    | nil => simp [any] at hf
    | cons b bs f ihc ihr =>
      unfold above?
      by_cases hp : p b = true
      · simp [hp]
      · rw [if_neg hp]
        by_cases hc : bs.any p = true
        · cases hcs : bs.above? p with
          | none => exact absurd hcs (ihc hc)
          | some => simp
        · rw [above?_eq_none (by simpa using hc)]
          exact ihr (by simpa [any, hp, hc] using hf)
  conv_lhs => unfold above?
  by_cases hp : p a = true
  · simp [hp]
  · by_cases hc : cs.any p = true
    · cases hcs : cs.above? p with
      | none => exact absurd hcs (key cs hc)
      | some => simp [hp, hc]
    · simp [hp, hc, above?_eq_none (show cs.any p = false by simpa using hc)]

theorem above?_append (p : α → Bool) (f g : Forest α) :
    (f ++ g).above? p = if f.any p then f.above? p else g.above? p := by
  induction f with
  | nil => simp [any]
  | cons a cs rest ihc ihr =>
    rw [cons_append, above?_cons, above?_cons, ihr]
    by_cases hp : p a = true <;> by_cases hc : cs.any p = true <;> simp [any, hp, hc]

theorem replace?_eq_none {p : α → Bool} {f : Forest α} (put : α → Forest α → Forest α)
    (h : f.any p = false) : f.replace? p put = none := by
  induction f with
  | nil => rfl
  | cons a cs rest ihc ihr =>
    simp only [any, Bool.or_eq_false_iff] at h
    simp [replace?, h.1.1, ihc h.1.2, ihr h.2]

theorem replace?_append_right {p : α → Bool} {f : Forest α} (g : Forest α)
    (put : α → Forest α → Forest α) (h : f.any p = false) :
    (f ++ g).replace? p put = (g.replace? p put).map (f ++ ·) := by
  induction f with
  | nil => simp
  | cons a cs rest ihc ihr =>
    simp only [any, Bool.or_eq_false_iff] at h
    rw [cons_append]
    simp only [replace?, h.1.1, Bool.false_eq_true, if_false, replace?_eq_none put h.1.2, ihr h.2,
      Option.map_map]
    rfl

/-! ## What a test finds at a spot -/

section Spot

variable {p : α → Bool} {up : List (Frame α)}

theorem treeAt_wrap (f : Forest α) (hup : ∀ a ∈ opening up, p a = false) (h : f.any p = true) :
    (wrap up f).treeAt p = f.treeAt p := by
  induction up generalizing f with
  | nil => rfl
  | cons fr up ih =>
    simp only [opening, List.mem_append, List.mem_singleton] at hup
    have hb : fr.before.any p = false := any_eq_false_iff.mpr fun a ha => hup a (.inr (.inl ha))
    have hv : p fr.value = false := hup _ (.inr (.inr rfl))
    have hin : (fr.before ++ cons fr.value f fr.after).any p = true := by
      simp [any_append, any, h]
    rw [wrap, ih _ (fun a ha => hup a (.inl ha)) hin, treeAt_append, treeAt_cons]
    simp [hb, hv, h]

theorem above?_wrap (f : Forest α) (hup : ∀ a ∈ opening up, p a = false) (h : f.any p = true) :
    (wrap up f).above? p = (f.above? p).map (· ++ up.map Frame.value) := by
  induction up generalizing f with
  | nil => simp [wrap]
  | cons fr up ih =>
    simp only [opening, List.mem_append, List.mem_singleton] at hup
    have hb : fr.before.any p = false := any_eq_false_iff.mpr fun a ha => hup a (.inr (.inl ha))
    have hv : p fr.value = false := hup _ (.inr (.inr rfl))
    have hin : (fr.before ++ cons fr.value f fr.after).any p = true := by
      simp [any_append, any, h]
    rw [wrap, ih _ (fun a ha => hup a (.inl ha)) hin, above?_append, above?_cons]
    simp [hb, hv, h, Function.comp_def]

theorem replace?_wrap {f f' : Forest α} {put : α → Forest α → Forest α}
    (hup : ∀ a ∈ opening up, p a = false) (h : f.replace? p put = some f') :
    (wrap up f).replace? p put = some (wrap up f') := by
  induction up generalizing f f' with
  | nil => exact h
  | cons fr up ih =>
    simp only [opening, List.mem_append, List.mem_singleton] at hup
    have hb : fr.before.any p = false := any_eq_false_iff.mpr fun a ha => hup a (.inr (.inl ha))
    have hv : p fr.value = false := hup _ (.inr (.inr rfl))
    refine ih (fun a ha => hup a (.inl ha)) ?_
    rw [replace?_append_right _ _ hb]
    simp [replace?, hv, h]

end Spot

/-- The first node that passes a test is at a spot. -/
theorem exists_wrap {p : α → Bool} {f : Forest α} (h : f.any p = true) :
    ∃ up before a cs after, f = wrap up (before ++ cons a cs after) ∧ p a = true ∧
      (∀ b ∈ opening up, p b = false) ∧ before.any p = false := by
  induction f with
  | nil => simp [any] at h
  | cons a cs rest ihc ihr =>
    by_cases hp : p a = true
    · exact ⟨[], nil, a, cs, rest, rfl, hp, by simp [opening], rfl⟩
    by_cases hc : cs.any p = true
    · obtain ⟨up, before, b, bs, after, hcs, hb, hup, hbefore⟩ := ihc hc
      refine ⟨up ++ [⟨nil, a, rest⟩], before, b, bs, after, ?_, hb, ?_, hbefore⟩
      · rw [wrap_append, ← hcs]
        rfl
      · simp only [opening_append, opening, toList, List.nil_append, List.mem_append,
          List.mem_singleton]
        rintro x (rfl | hx)
        · simpa using hp
        · exact hup x hx
    · have hr : rest.any p = true := by simpa [any, hp, hc] using h
      obtain ⟨up, before, b, bs, after, he, hb, hup, hbefore⟩ := ihr hr
      have hfirst : ∀ x ∈ a :: cs.toList, p x = false := by
        intro x hx
        rcases List.mem_cons.mp hx with rfl | hx
        · simpa using hp
        · exact any_eq_false_iff.mp (by simpa using hc) x hx
      rcases List.eq_nil_or_concat up with rfl | ⟨outer, fr, rfl⟩
      · refine ⟨[], cons a cs before, b, bs, after, by rw [he]; rfl, hb, hup, ?_⟩
        simpa [any, hbefore, hp] using hc
      · -- The outermost frame gets one more tree in front.
        rw [List.concat_eq_append] at he hup
        refine ⟨outer ++ [⟨cons a cs fr.before, fr.value, fr.after⟩], before, b, bs, after, ?_, hb,
          ?_, hbefore⟩
        · rw [he, wrap_append, wrap_append]
          rfl
        · intro x hx
          simp only [opening_append, opening, toList, List.nil_append, List.cons_append,
            List.append_assoc, List.mem_append, List.mem_cons] at hx
          rcases hx with rfl | hx | hx
          · exact hfirst x (by simp)
          · exact hfirst x (by simp [hx])
          · exact hup x (by
              simp only [opening_append, opening, List.nil_append, List.mem_append,
                List.mem_singleton]
              simpa [or_assoc] using hx)

/-! ## Changing the first node that passes a test -/

section Replace

variable {p : α → Bool} {put : α → Forest α → Forest α}

theorem replace_eq_self {f : Forest α} (h : f.any p = false) : f.replace p put = f := by
  simp [replace, replace?_eq_none put h]

theorem replace?_isSome {f : Forest α} (put : α → Forest α → Forest α) (h : f.any p = true) :
    (f.replace? p put).isSome := by
  obtain ⟨up, before, a, cs, after, rfl, ha, hup, hb⟩ := exists_wrap h
  have hin : (before ++ cons a cs after).replace? p put = some (before ++ (put a cs ++ after)) := by
    rw [replace?_append_right _ _ hb]
    simp [replace?, ha]
  simp [replace?_wrap hup hin]

theorem replace_cons (a : α) (cs rest : Forest α) :
    (cons a cs rest).replace p put =
      if p a then put a cs ++ rest
      else if cs.any p then cons a (cs.replace p put) rest
      else cons a cs (rest.replace p put) := by
  by_cases hp : p a = true
  · simp [replace, replace?, hp]
  by_cases hc : cs.any p = true
  · obtain ⟨cs', hcs⟩ := Option.isSome_iff_exists.mp (replace?_isSome put hc)
    simp [replace, replace?, hp, hc, hcs]
  · have hcs := replace?_eq_none put (p := p) (f := cs) (by simpa using hc)
    cases hr : rest.replace? p put <;> simp [replace, replace?, hp, hc, hcs, hr]

/-- What a change does to the values, given the tree that was changed. -/
theorem exists_toList_replace {f : Forest α} (h : f.any p = true) :
    ∃ a cs u w, f.treeAt p = tree a cs ∧ p a = true ∧ f.toList = u ++ ((a :: cs.toList) ++ w) ∧
      (∀ put, (f.replace p put).toList = u ++ ((put a cs).toList ++ w)) ∧
      ∀ b ∈ u, p b = false := by
  induction f with
  | nil => simp [any] at h
  | cons a cs rest ihc ihr =>
    by_cases hp : p a = true
    · exact ⟨a, cs, [], rest.toList, by simp [treeAt_cons, hp], hp, by simp [toList],
        fun put => by simp [replace_cons, hp], by simp⟩
    by_cases hc : cs.any p = true
    · obtain ⟨b, bs, u, w, ht, hb, hl, hput, hu⟩ := ihc hc
      refine ⟨b, bs, a :: u, w ++ rest.toList, ?_, hb, ?_, fun put => ?_, ?_⟩
      · simp [treeAt_cons, hp, hc, ht]
      · simp [toList, hl]
      · simp [replace_cons, hp, hc, toList, hput]
      · simpa [hp] using hu
    · have hr : rest.any p = true := by simpa [any, hp, hc] using h
      obtain ⟨b, bs, u, w, ht, hb, hl, hput, hu⟩ := ihr hr
      refine ⟨b, bs, a :: (cs.toList ++ u), w, ?_, hb, ?_, fun put => ?_, ?_⟩
      · simp [treeAt_cons, hp, hc, ht]
      · simp [toList, hl]
      · simp [replace_cons, hp, hc, toList, hput]
      · intro x hx
        rcases List.mem_cons.mp hx with rfl | hx
        · simpa using hp
        · rcases List.mem_append.mp hx with hx | hx
          · exact any_eq_false_iff.mp (by simpa using hc) x hx
          · exact hu x hx

end Replace

end WordTemplate.Forest
