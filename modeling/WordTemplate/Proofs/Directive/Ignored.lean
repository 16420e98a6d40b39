import WordTemplate.Proofs.Directive.Outline

/-!
# Ignored regions

Nothing between the start and the end of an ignored region is a directive. So the outline of a text
has nothing but characters there.

* `skipsIgnored_findAll`: the directives that are found in a text.
* `Spells.ignoresPlain`: what that means for an outline.
-/

namespace WordTemplate

open Forest

/-! ## Directives among tokens -/

/-- The directive that a token is. -/
def Token.directive? : Token → Option Directive
  | .char _ => none
  | .directive d => some d

/-- The directives among tokens. -/
def directivesOf (ts : List Token) : List Directive :=
  ts.filterMap Token.directive?

@[simp] theorem directivesOf_nil : directivesOf [] = [] := rfl

@[simp] theorem directivesOf_append (ts us : List Token) :
    directivesOf (ts ++ us) = directivesOf ts ++ directivesOf us :=
  List.filterMap_append

@[simp] theorem directivesOf_char (c : Char) (ts : List Token) :
    directivesOf (.char c :: ts) = directivesOf ts := rfl

@[simp] theorem directivesOf_directive (d : Directive) (ts : List Token) :
    directivesOf (.directive d :: ts) = d :: directivesOf ts := rfl

@[simp] theorem directivesOf_chars (s : List Char) : directivesOf (s.map .char) = [] := by
  rw [directivesOf, List.filterMap_map, List.filterMap_eq_nil_iff]
  intro c _
  rfl

theorem directivesOf_tokensFrom (position : Nat) (s : List Char) (ds : List Directive) :
    directivesOf (tokensFrom position s ds) = ds := by
  induction ds generalizing position s with
  | nil => exact directivesOf_chars s
  | cons d ds ih => rw [tokensFrom, directivesOf_append, directivesOf_chars, List.nil_append,
      directivesOf_directive, ih]

/-! ## Directives outside ignored regions -/

/-- Whether no directive stands inside an ignored region. `ignoring` says whether the list begins in
one. -/
def SkipsIgnored : Bool → List Directive → Prop
  | _, [] => True
  | true, d :: ds => d.kind = .ignoreEnd ∧ SkipsIgnored false ds
  | false, d :: ds => SkipsIgnored (d.kind = .ignoreStart) ds

theorem skipsIgnored_outsideIgnored (ignoring : Bool) (ds : List Directive) :
    SkipsIgnored ignoring (Directive.outsideIgnored ignoring ds) := by
  induction ds generalizing ignoring with
  | nil => cases ignoring <;> trivial
  | cons d ds ih =>
    cases ignoring with
    | false => exact ih (d.kind = .ignoreStart)
    | true =>
      rw [Directive.outsideIgnored, if_pos rfl]
      split
      · next hend => exact ⟨hend, ih false⟩
      · exact ih true

/-- What comes behind a directive that does not begin an ignored region. -/
theorem SkipsIgnored.outside {d : Directive} {ds : List Directive}
    (h : SkipsIgnored false (d :: ds)) (hd : d.kind ≠ .ignoreStart) : SkipsIgnored false ds := by
  rwa [SkipsIgnored, decide_eq_false hd] at h

/-- The directives that are found in a text stand outside of ignored regions. -/
theorem skipsIgnored_findAll (s : String) : SkipsIgnored false (Directive.findAll s) :=
  skipsIgnored_outsideIgnored false _

/-! ## Outlines -/

/-- Whether this is a character, or a passage. -/
def Part.isPlain : Part → Bool
  | .char _ | .passage _ => true
  | .value _ | .keyword _ | .block _ => false

/-- Whether this is a block or a passage of the kind of ignored regions. -/
def Part.isIgnored : Part → Bool
  | .block d => d.kind = .ignoreStart
  | .passage kind => kind = .ignoreStart
  | .char _ | .value _ | .keyword _ => false

/-- Whether there is nothing but characters in the ignored regions of an outline. -/
def IgnoresPlain : Forest Part → Prop
  | .nil => True
  | .cons p PS P =>
    (p.isIgnored = true → ∀ q ∈ PS.toList, q.isPlain = true) ∧ IgnoresPlain PS ∧ IgnoresPlain P

theorem ignoresPlain_of_isPlain {P : Forest Part} (h : ∀ q ∈ P.toList, q.isPlain = true) :
    IgnoresPlain P := by
  induction P with
  | nil => trivial
  | cons p PS P ihs ih =>
    simp only [toList, List.mem_cons, List.mem_append] at h
    exact ⟨fun _ q hq => h q (.inr (.inl hq)), ihs fun q hq => h q (.inr (.inl hq)),
      ih fun q hq => h q (.inr (.inr hq))⟩

section Spells

variable {kind : Option Directive.Kind} {P : Forest Part} {ts : List Token} {ds : List Directive}

/-- An outline of what is in an ignored region. -/
theorem Spells.isPlain (h : Spells kind P ts) (hds : SkipsIgnored true (directivesOf ts ++ ds)) :
    (∀ q ∈ P.toList, q.isPlain = true) ∧ SkipsIgnored true ds := by
  induction h generalizing ds with
  | nil => exact ⟨by simp [toList], hds⟩
  | char c _ ih =>
    obtain ⟨hP, hds⟩ := ih hds
    refine ⟨?_, hds⟩
    intro q hq
    rcases List.mem_cons.mp hq with rfl | hq
    · rfl
    · exact hP q (by simpa [toList] using hq)
  | value hd _ _ =>
    rw [directivesOf_directive, List.cons_append] at hds
    cases hd.symm.trans hds.1
  | keyword hd _ _ =>
    rw [directivesOf_directive, List.cons_append] at hds
    cases hd.symm.trans hds.1
  | block hstart _ _ _ _ _ _ =>
    rw [directivesOf_directive, List.cons_append] at hds
    rw [hds.1] at hstart
    cases hstart
  | last _ ih =>
    obtain ⟨hP, hds⟩ := ih hds
    refine ⟨?_, hds⟩
    intro q hq
    simp only [tree, toList, List.mem_cons, List.mem_append, List.not_mem_nil, or_false] at hq
    rcases hq with rfl | hq
    · rfl
    · exact hP q hq
  | more _ hnext _ ih _ =>
    rw [directivesOf_append, directivesOf_directive, List.append_assoc, List.cons_append] at hds
    obtain ⟨-, hend, -⟩ := ih hds
    rw [hend] at hnext
    cases hnext

/-- An outline of what is outside of ignored regions has nothing but characters in those within. -/
theorem Spells.ignoresPlain (h : Spells kind P ts) (hkind : kind ≠ some .ignoreStart)
    (hds : SkipsIgnored false (directivesOf ts ++ ds)) :
    IgnoresPlain P ∧ SkipsIgnored false ds := by
  induction h generalizing ds with
  | nil => exact ⟨trivial, hds⟩
  | char c _ ih =>
    obtain ⟨hP, hds⟩ := ih (by simp) hds
    exact ⟨⟨by simp [Part.isIgnored], trivial, hP⟩, hds⟩
  | value hd _ ih =>
    rw [directivesOf_directive, List.cons_append] at hds
    obtain ⟨hP, hds⟩ := ih (by simp) (hds.outside (by simp [hd]))
    exact ⟨⟨by simp [Part.isIgnored], trivial, hP⟩, hds⟩
  | keyword hd _ ih =>
    rw [directivesOf_directive, List.cons_append] at hds
    obtain ⟨hP, hds⟩ := ih (by simp) (hds.outside (by simp [hd]))
    exact ⟨⟨by simp [Part.isIgnored], trivial, hP⟩, hds⟩
  | @block start stop PS P mid ts _ _ hstop hmid _ ihm ih =>
    rw [directivesOf_directive, directivesOf_append, directivesOf_directive, List.cons_append,
      List.append_assoc, List.cons_append] at hds
    by_cases hignore : start.kind = .ignoreStart
    · rw [SkipsIgnored, decide_eq_true hignore] at hds
      obtain ⟨hPS, -, hds⟩ := hmid.isPlain hds
      obtain ⟨hP, hds⟩ := ih (by simp) hds
      exact ⟨⟨fun _ => hPS, ignoresPlain_of_isPlain hPS, hP⟩, hds⟩
    · obtain ⟨hPS, hds⟩ := ihm (by simp) (hds.outside hignore)
      have hnot : stop.kind ≠ .ignoreStart := by
        intro he
        rw [he] at hstop
        cases hstop
      obtain ⟨hP, hds⟩ := ih (by simp) (hds.outside hnot)
      exact ⟨⟨fun hd => absurd (of_decide_eq_true hd) hignore, hPS, hP⟩, hds⟩
  | last _ ih =>
    obtain ⟨hP, hds⟩ := ih (by simp) hds
    exact ⟨⟨fun hd => absurd (congrArg some (of_decide_eq_true hd)) hkind, hP, trivial⟩, hds⟩
  | @more kind next P PS ts us _ hnext _ ih ihs =>
    rw [directivesOf_append, directivesOf_directive, List.append_assoc, List.cons_append] at hds
    obtain ⟨hP, hds⟩ := ih (by simp) hds
    have hnot : next.kind ≠ .ignoreStart := by
      intro he
      rw [he] at hnext
      cases hnext
    obtain ⟨hPS, hds⟩ := ihs (by simpa using hnot) (hds.outside hnot)
    exact ⟨⟨fun hd => absurd (congrArg some (of_decide_eq_true hd)) hkind, hP, hPS⟩, hds⟩

end Spells

end WordTemplate
