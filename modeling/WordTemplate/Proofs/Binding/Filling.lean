import WordTemplate.Proofs.Word.Shown

/-!
# Filling in the placeholders of a scope

The placeholders of a scope are filled in one after another, in document order. So what a scope shows afterwards
can be told from its signs alone, and so can a failure.

* `fillEach_spec`: filling in the placeholders of the landmarks that are still to be dealt with.
* `runs_substitute`: the driver of a model.
-/

namespace WordTemplate

open Xml Forest Binding

section Fill

variable {ε : Type} {render : String → Except ε (Option String)} {d₀ d : Document} {root : NodeId}
  {mute : List String} {ls u v : List Landmark} {s : Sign}

theorem fill_of_isPlaceholder_eq_false (h : s.isPlaceholder = false) : s.fill render = .ok [s] := by
  cases s with
  | anchor id => rfl
  | text marks content =>
    rw [Sign.fill, if_neg]
    simpa [Sign.isPlaceholder] using h

/-- Without placeholders there is nothing to fill in. -/
theorem fillSigns_of_forall {ss : List Sign} (h : ∀ s ∈ ss, s.isPlaceholder = false) :
    fillSigns render ss = .ok ss := by
  induction ss with
  | nil => rfl
  | cons s ss ih =>
    rw [List.forall_mem_cons] at h
    exact joined_eq_ok_iff.mpr ⟨_, _, fill_of_isPlaceholder_eq_false h.1, ih h.2, rfl⟩

/-- The placeholders of a scope, in document order. -/
theorem Charted.placeholders_eq (h : Charted d root mute ls) :
    d.placeholders root = (ls.filter (·.sign.isPlaceholder)).map Landmark.node := by
  rw [Document.placeholders, Document.textElements, textElements_eq h.sound, h.landmarks_eq, List.filter_map,
    List.filter_filter]
  congr 1
  refine List.filter_congr fun x hx => ?_
  obtain ⟨u, v, rfl⟩ := List.append_of_mem hx
  cases hsign : x.sign with
  | anchor id => simp [Sign.isAnchor, Sign.isPlaceholder]
  | text marks s => simp [h.mark?_eq hsign, Sign.isAnchor, Sign.isPlaceholder]

/-- Filling in the placeholders from some landmark on. -/
theorem fillEach_spec (wf₀ : d₀.WellFormed) (hs : root ∈ d₀.ids) (hmute : Word.text ∉ mute)
    (h : d₀.Within d root) (hC : Charted d root mute (u ++ v)) (htidy : ∀ x ∈ v, x.sign.IsTidy) :
    match fillEach render ((v.filter (·.sign.isPlaceholder)).map Landmark.node) d with
    | .ok _ d' => d₀.Within d' root ∧ ∃ ls', Charted d' root mute (u ++ ls') ∧
        fillSigns render (v.map Landmark.sign) = .ok (ls'.map Landmark.sign)
    | .error e _ => fillSigns render (v.map Landmark.sign) = .error e := by
  induction v generalizing d u with
  | nil => exact ⟨h, [], hC, rfl⟩
  | cons x v ih =>
    have htidy' : ∀ y ∈ v, y.sign.IsTidy := fun y hy => htidy y (List.mem_cons_of_mem x hy)
    rw [List.map_cons, fillSigns]
    -- A sign that stays as it is.
    have hsame : x.sign.fill render = .ok [x.sign] →
        match fillEach render ((v.filter (·.sign.isPlaceholder)).map Landmark.node) d with
        | .ok _ d' => d₀.Within d' root ∧ ∃ ls', Charted d' root mute (u ++ ls') ∧
            joined (x.sign.fill render) (fillSigns render (v.map Landmark.sign)) =
              .ok (ls'.map Landmark.sign)
        | .error e _ =>
          joined (x.sign.fill render) (fillSigns render (v.map Landmark.sign)) = .error e := by
      intro hfill
      have hrest := ih (u := u ++ [x]) h (by simpa using hC) htidy'
      split at hrest
      · obtain ⟨hw, ls', hC', he⟩ := hrest
        exact ⟨hw, x :: ls', by simpa using hC', joined_eq_ok_iff.mpr ⟨_, _, hfill, he, rfl⟩⟩
      · rw [hfill, hrest]
        rfl
    by_cases hp : x.sign.isPlaceholder = true
    swap
    · rw [List.filter_cons, if_neg hp]
      exact hsame (fill_of_isPlaceholder_eq_false (by simpa using hp))
    rw [List.filter_cons, if_pos hp, List.map_cons, fillEach]
    cases hsign : x.sign with
    | anchor id => simp [hsign, Sign.isPlaceholder] at hp
    | text marks s =>
      have hkind : markKind? marks = some .placeholder := by simpa [hsign, Sign.isPlaceholder] using hp
      rw [hC.innerText_eq hsign]
      cases hvalue : render s with
      | error e =>
        have hfill : x.sign.fill render = .error e := by
          rw [hsign, Sign.fill, if_pos hkind, hvalue]
          rfl
        rw [← hsign, hfill]
        rfl
      | ok value? =>
        cases value? with
        | none =>
          have hfill : x.sign.fill render = .ok [x.sign] := by
            rw [hsign, Sign.fill, if_pos hkind, hvalue]
            rfl
          rw [← hsign]
          exact hsame hfill
        | some value =>
          have hfill : x.sign.fill render = .ok ((Word.valueLines value).map (.text [])) := by
            rw [hsign, Sign.fill, if_pos hkind, hvalue]
            rfl
          rw [← hsign]
          obtain ⟨first, others, lines, hlines, hw, hC', hsigns⟩ := writeValue_chart h wf₀ hs hmute hC hsign value
          have hmarks : marks.tail = [] := by
            have := htidy x (List.mem_cons_self ..)
            rwa [hsign] at this
          rw [hmarks] at hC'
          have hrest := ih (u := u ++ ⟨x.node, .text [] first, x.path⟩ :: lines) hw (by simpa using hC')
            htidy'
          dsimp only
          split at hrest
          · obtain ⟨hw', ls', hC'', he⟩ := hrest
            refine ⟨hw', ⟨x.node, .text [] first, x.path⟩ :: (lines ++ ls'), by simpa using hC'', ?_⟩
            refine joined_eq_ok_iff.mpr ⟨_, _, hfill, he, ?_⟩
            simp [hlines, hsigns]
          · rw [hfill, hrest]
            rfl

end Fill

/-- Filling in the placeholders of a scope with the values of a model. -/
theorem runs_substitute (b : ModelBinding) {mute : List String} {w : Workspace Scopes} {scope : NodeId}
    {ss : List Sign} (hmute : Word.text ∉ mute) (hS : Scoped w.document scope mute ss)
    (htidy : ∀ s ∈ ss, s.IsTidy) :
    Runs (b.driver.substitute scope) w
      (fun _ w' => w.document.Within w'.document scope ∧ w'.state = w.state ∧
        ∃ ss', Scoped w'.document scope mute ss' ∧ fillSigns (b.renderText w.state) ss = .ok ss')
      fun e _ => fillSigns (b.renderText w.state) ss = .error e := by
  have hC := hS.charted
  have hfill := @fillEach_spec _ (b.renderText w.state) _ _ _ _ [] _ hS.wellFormed hS.mem_ids hmute
    (.refl hS.wellFormed) hC fun x hx => htidy _ (by
      rw [← hS.map_sign_landmarks]
      exact List.mem_map_of_mem hx)
  rw [← hC.placeholders_eq, ← fillPlaceholders_eq, hS.map_sign_landmarks] at hfill
  have hrun : b.driver.substitute scope w =
      Step.onDocument (fillPlaceholders (b.renderText w.state) scope) w := rfl
  rw [Runs, hrun, Step.onDocument]
  cases he : fillPlaceholders (b.renderText w.state) scope w.document with
  | error e d =>
    rw [he] at hfill
    exact hfill
  | ok a d =>
    rw [he] at hfill
    obtain ⟨hw, ls', hC', hsigns⟩ := hfill
    exact ⟨hw, rfl, _, hC'.scoped, hsigns⟩

end WordTemplate
