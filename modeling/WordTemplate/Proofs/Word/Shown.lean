import WordTemplate.Proofs.Binding.Substitution

/-!
# What signs show

The texts of directives are taken out in the end, so of the signs of a scope only those texts are shown that
are not marked. An anchor shows nothing, and what stands for its block comes into its place (`weave`).

* `fillSigns`: what filling in the placeholders makes of the signs.
* `visible_weave_replace`: one anchor after another can be replaced.
* `Sheds.visible_weave`: a paragraph that is taken out because it is blank showed nothing but blanks.
-/

namespace WordTemplate

open Xml Forest Binding

/-! ## Results put together -/

/-- Two results, one after the other. The first failure is the result if there is one. -/
def joined {ε α : Type} (first second : Except ε (List α)) : Except ε (List α) := do
  return (← first) ++ (← second)

theorem joined_eq_ok_iff {ε α : Type} {first second : Except ε (List α)} {l : List α} :
    joined first second = .ok l ↔ ∃ u v, first = .ok u ∧ second = .ok v ∧ l = u ++ v := by
  cases first with
  | error e => simp [joined, bind, Except.bind]
  | ok u =>
    cases second with
    | error e => simp [joined, bind, Except.bind]
    | ok v => simp [joined, bind, Except.bind, pure, Except.pure, eq_comm]

/-- What is shown of a value: its lines, one after the other. -/
def Word.shownText (value : String) : List Char :=
  (Word.valueLines value).flatMap String.toList

namespace Sign

/-- What a sign shows after the texts of directives have been taken out. -/
def shown : Sign → List Char
  | text marks content => if marks = [] then content.toList else []
  | anchor _ => []

/-- Whether this is no text of a placeholder, and marked once at most. -/
def IsFilled : Sign → Prop
  | text marks _ => marks = [] ∨ ∃ kind : Directive.Kind, kind ≠ .placeholder ∧ marks = [kind.name]
  | anchor _ => True

/-- What becomes of a sign when placeholders are filled in: the lines of a value come into the place of a
placeholder. -/
def fill {ε : Type} (render : String → Except ε (Option String)) : Sign → Except ε (List Sign)
  | text marks content =>
    if markKind? marks = some .placeholder then
      (render content).map fun
        | some value => (Word.valueLines value).map (text [])
        | none => [text marks content]
    else .ok [text marks content]
  | anchor id => .ok [anchor id]

end Sign

/-- What signs show after the texts of directives have been taken out. -/
def shown (ss : List Sign) : List Char :=
  ss.flatMap Sign.shown

/-- What signs show when texts come into the places of the anchors, in order. -/
def weave : List Sign → List (List Char) → List Char
  | [], _ => []
  | .text marks content :: ss, texts => (Sign.text marks content).shown ++ weave ss texts
  | .anchor _ :: ss, [] => weave ss []
  | .anchor _ :: ss, text :: texts => text ++ weave ss texts

/-- The characters of a text that are seen if paragraphs are stripped: those that are not blank. Otherwise all of
them. -/
def visible (strip : Bool) (text : List Char) : List Char :=
  if strip then text.filter (!Text.isBlank ·) else text

/-- Signs after placeholders have been filled in. -/
def fillSigns {ε : Type} (render : String → Except ε (Option String)) : List Sign → Except ε (List Sign)
  | [] => .ok []
  | s :: ss => joined (s.fill render) (fillSigns render ss)

section Shown

variable {u v ss ss' : List Sign} {texts : List (List Char)}

@[simp] theorem shown_nil : shown [] = [] := rfl

@[simp] theorem shown_cons (s : Sign) (ss : List Sign) : shown (s :: ss) = s.shown ++ shown ss := rfl

@[simp] theorem shown_append (ss ss' : List Sign) : shown (ss ++ ss') = shown ss ++ shown ss' :=
  List.flatMap_append

theorem shown_map_text (lines : List String) :
    shown (lines.map (.text [])) = lines.flatMap String.toList := by
  induction lines with
  | nil => rfl
  | cons line lines ih => rw [List.map_cons, shown_cons, ih, List.flatMap_cons]; rfl

/-- Signs in front of the first anchor. -/
theorem weave_append (h : anchorIds u = []) : weave (u ++ v) texts = shown u ++ weave v texts := by
  induction u with
  | nil => rfl
  | cons s u ih =>
    cases s with
    | anchor id => cases h
    | text marks content =>
      rw [List.cons_append, weave, ih h, shown_cons, List.append_assoc]

theorem weave_of_anchorIds (h : anchorIds ss = []) : weave ss texts = shown ss := by
  simpa [weave] using weave_append (v := []) h

/-- If anchors are shown in an order in which none comes twice, what is in front of the first has none. -/
theorem anchorIds_eq_nil {id : String} {ids : List String}
    (h : anchorIds (u ++ .anchor id :: v) = id :: ids) (hnd : (id :: ids).Nodup) :
    anchorIds u = [] ∧ anchorIds v = ids := by
  rw [anchorIds_append, anchorIds_cons_anchor] at h
  cases hu : anchorIds u with
  | nil =>
    rw [hu] at h
    exact ⟨rfl, (List.cons.inj h).2⟩
  | cons x xs =>
    rw [hu] at h
    obtain ⟨rfl, h⟩ := List.cons.inj h
    have hmem : x ∈ ids := h ▸ List.mem_append_right xs (List.mem_cons_self ..)
    exact absurd hmem (List.nodup_cons.mp hnd).1

end Shown

section Visible

variable {strip : Bool} {u v ss ss' : List Sign} {texts : List (List Char)} {text : List Char}

@[simp] theorem visible_append (strip : Bool) (s t : List Char) :
    visible strip (s ++ t) = visible strip s ++ visible strip t := by
  cases strip with
  | false => rfl
  | true => exact List.filter_append s t

/-- The first anchor can be replaced by signs that show the first text. -/
theorem visible_weave_replace {id : String} (hu : anchorIds u = []) (hss : anchorIds ss = [])
    (hshown : visible strip (shown ss) = visible strip text) :
    visible strip (weave (u ++ (ss ++ v)) texts) = visible strip (weave (u ++ .anchor id :: v) (text :: texts)) := by
  rw [weave_append hu, weave_append hu, weave, weave_append hss]
  simp only [visible_append, hshown]

/-- Blank signs show nothing but blanks. -/
theorem visible_shown_of_isBlank (h : ∀ s ∈ ss, s.isBlank = true) : visible true (shown ss) = [] := by
  induction ss with
  | nil => rfl
  | cons s ss ih =>
    rw [List.forall_mem_cons] at h
    rw [shown_cons, visible_append, ih h.2, List.append_nil]
    cases s with
    | anchor id => rfl
    | text marks content =>
      have hblank := h.1
      rw [Sign.shown]
      split
      · next hmarks =>
        rw [hmarks] at hblank
        have hall : Text.isBlankText content = true := hblank
        rw [Text.isBlankText, List.all_eq_true] at hall
        simpa [visible, List.filter_eq_nil_iff] using hall
      · rfl

/-- What comes into the places of the anchors is seen in the same way after blank signs have been shed. -/
theorem Sheds.visible_weave (h : Sheds strip ss ss') :
    visible strip (weave ss' texts) = visible strip (weave ss texts) := by
  cases strip with
  | false => rw [h.eq]
  | true =>
    obtain ⟨x, y, z, rfl, rfl, hy, -⟩ := h
    induction x generalizing texts with
    | nil =>
      rw [List.nil_append, List.nil_append, weave_append (anchorIds_of_isBlank hy), visible_append,
        visible_shown_of_isBlank hy, List.nil_append]
    | cons s x ih =>
      cases s with
      | text marks content => simp only [List.cons_append, weave, visible_append, ih]
      | anchor id => cases texts <;> simp only [List.cons_append, weave, visible_append, ih]

end Visible

section Fill

variable {ε : Type} {render : String → Except ε (Option String)} {ss ss' : List Sign} {s : Sign}

theorem fill_of_isFilled (h : s.IsFilled) : s.fill render = .ok [s] := by
  cases s with
  | anchor id => rfl
  | text marks content =>
    rw [Sign.fill, if_neg]
    rcases h with rfl | ⟨kind, hkind, rfl⟩
    · simp [markKind?]
    · simpa [markKind?, Directive.Kind.ofName?_name] using hkind

/-- Filling in placeholders makes no anchors and takes none away. -/
theorem anchorIds_fillSigns (h : fillSigns render ss = .ok ss') : anchorIds ss' = anchorIds ss := by
  induction ss generalizing ss' with
  | nil =>
    cases h
    rfl
  | cons s ss ih =>
    obtain ⟨u, v, hu, hv, rfl⟩ := joined_eq_ok_iff.mp h
    rw [anchorIds_append, ih hv]
    cases s with
    | anchor id =>
      cases hu
      rfl
    | text marks content =>
      have hnone : anchorIds u = [] := by
        rw [Sign.fill] at hu
        split at hu
        · cases hvalue : render content with
          | error e =>
            rw [hvalue] at hu
            cases hu
          | ok value? =>
            rw [hvalue] at hu
            cases value? with
            | none =>
              cases hu
              rfl
            | some value =>
              cases hu
              rw [anchorIds, List.filterMap_eq_nil_iff]
              simp [Sign.anchorId?]
        · cases hu
          rfl
      rw [hnone]
      rfl

end Fill

end WordTemplate
