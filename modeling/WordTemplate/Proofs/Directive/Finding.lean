import Mathlib.Data.List.TakeWhile
import Mathlib.Tactic.Tauto
import WordTemplate.Proofs.Directive.Scan

/-!
# Which directives a text has

Where double braces with no brace between them stand in a text, and which of these places are found
as directives.

* `Occurs.le_of_lt`: the places do not overlap.
* `mem_occurrences_iff`: scanning from the left finds all of them.
* `mem_outsideIgnored_iff`: what is left out is what lies between the start of an ignored region and
  the next end of one.
* `findAll_exact`: the directives of a text, and that parsing a single one agrees with it.
-/

namespace WordTemplate.Directive

/-! ## Places of double braces -/

/-- Whether `body` stands between double braces in `s` at `position`, and has no brace itself. -/
structure Occurs (s : List Char) (position : Nat) (body : List Char) : Prop where
  noBrace : ∀ c ∈ body, isBrace c = false
  isPrefix : enclose body <+: s.drop position

section Occurs

variable {s body body' rest : List Char} {k p q : Nat} {c : Char}

theorem occurrence?_eq_some_iff :
    occurrence? s = some (body, rest) ↔ (∀ c ∈ body, isBrace c = false) ∧ s = enclose body ++ rest := by
  constructor
  · intro h
    refine ⟨fun c hc => ?_, eq_append_of_occurrence? h⟩
    obtain ⟨inner, -, h⟩ := Option.bind_eq_some_iff.mp h
    obtain ⟨_, -, he⟩ := Option.map_eq_some_iff.mp h
    rw [← (Prod.mk.inj he).1] at hc
    simpa using List.mem_takeWhile_imp hc
  · rintro ⟨hbody, rfl⟩
    have hstop : ∀ p : Char → Bool, (∀ c ∈ body, p c = true) → p '}' = false →
        (body ++ (closingBraces ++ rest)).takeWhile p = body ∧
          (body ++ (closingBraces ++ rest)).dropWhile p = closingBraces ++ rest := by
      intro p hp hclose
      rw [List.takeWhile_append_of_pos hp, List.dropWhile_append_of_pos hp]
      simp [closingBraces, hclose]
    obtain ⟨htake, hdrop⟩ := hstop (!isBrace ·) (by simpa using hbody) rfl
    rw [occurrence?, enclose, List.append_assoc, List.append_assoc, Text.isPrefixOf?_append,
      Option.bind_some, hdrop, Text.isPrefixOf?_append, htake, Option.map_some]

theorem occurs_zero_iff : Occurs s 0 body ↔ ∃ rest, occurrence? s = some (body, rest) := by
  constructor
  · rintro ⟨hbody, rest, hs⟩
    exact ⟨rest, occurrence?_eq_some_iff.mpr ⟨hbody, hs.symm⟩⟩
  · rintro ⟨rest, h⟩
    obtain ⟨hbody, rfl⟩ := occurrence?_eq_some_iff.mp h
    exact ⟨hbody, rest, rfl⟩

theorem occurs_append_iff (front : List Char) : Occurs (front ++ s) (front.length + p) body ↔ Occurs s p body := by
  constructor <;> rintro ⟨hbody, h⟩ <;> refine ⟨hbody, ?_⟩
  · rwa [List.drop_length_add_append] at h
  · rwa [List.drop_length_add_append]

/-- Two bodies at one place are the same. -/
theorem Occurs.eq (h : Occurs s p body) (h' : Occurs s p body') : body = body' := by
  have h₀ : Occurs (s.drop p) 0 body := ⟨h.noBrace, h.isPrefix⟩
  have h₀' : Occurs (s.drop p) 0 body' := ⟨h'.noBrace, h'.isPrefix⟩
  obtain ⟨_, hs⟩ := occurs_zero_iff.mp h₀
  obtain ⟨_, hs'⟩ := occurs_zero_iff.mp h₀'
  rw [hs] at hs'
  exact (Prod.mk.inj (Option.some.inj hs')).1

/-- There is no opening brace in an occurrence behind the two at its front. -/
theorem getElem?_enclose_ne (hbody : ∀ c ∈ body, isBrace c = false) (h2 : 2 ≤ p)
    (hlt : p < (enclose body).length) : (enclose body ++ rest)[p]? ≠ some '{' := by
  rw [List.getElem?_append_left hlt, enclose, List.append_assoc, List.getElem?_append_right (by exact h2)]
  intro h
  rcases List.mem_append.mp (List.mem_of_getElem? h) with hmem | hmem
  · simpa [isBrace] using hbody _ hmem
  · simp [closingBraces] at hmem

/-- Where double braces stand, two opening braces stand one behind the other. -/
theorem Occurs.getElem?_eq (h : Occurs s p body) : s[p]? = some '{' ∧ s[p + 1]? = some '{' := by
  obtain ⟨-, rest, hs⟩ := h
  have hat : ∀ i, s[p + i]? = (enclose body ++ rest)[i]? := fun i => by rw [hs, List.getElem?_drop]
  exact ⟨(hat 0).trans rfl, (hat 1).trans rfl⟩

/-- Occurrences do not overlap. -/
theorem Occurs.le_of_lt (h : Occurs s p body) (h' : Occurs s q body') (hlt : p < q) :
    p + (enclose body).length ≤ q := by
  by_contra hnot
  obtain ⟨rest, hs⟩ := h.isPrefix
  have hat : ∀ i, s[p + i]? = (enclose body ++ rest)[i]? := fun i => by rw [hs, List.getElem?_drop]
  obtain ⟨hq, hq'⟩ := h'.getElem?_eq
  obtain ⟨i, rfl⟩ : ∃ i, q = p + i := ⟨q - p, by omega⟩
  -- One of the two braces at `q` is behind the first two at `p`.
  by_cases hi : 2 ≤ i
  · exact getElem?_enclose_ne h.noBrace hi (by omega) ((hat i).symm.trans hq)
  · refine getElem?_enclose_ne h.noBrace (by omega) ?_ ((hat (i + 1)).symm.trans hq')
    simp only [enclose, openingBraces, closingBraces, List.length_append, List.length_cons,
      List.length_nil]
    omega

/-! ## Scanning -/

/-- The scan goes on behind an occurrence. -/
theorem occurrences_of_eq_some (h : occurrence? s = some (body, rest)) :
    occurrences k s = (k, body) :: occurrences (k + (enclose body).length) rest := by
  cases s with
  | nil => cases h
  | cons c cs =>
    rw [occurrences]
    split
    · next h' =>
      rw [h] at h'
      cases h'
      rfl
    · next h' => rw [h] at h'; cases h'

theorem occurrences_of_eq_none {cs : List Char} (h : occurrence? (c :: cs) = none) :
    occurrences k (c :: cs) = occurrences (k + 1) cs := by
  rw [occurrences]
  split
  · next h' => rw [h] at h'; cases h'
  · rfl

/-- Scanning from the left finds all occurrences. -/
theorem mem_occurrences_iff : (q, body) ∈ occurrences k s ↔ ∃ p, q = k + p ∧ Occurs s p body := by
  induction k, s using occurrences.induct generalizing q with
  | case1 k =>
    simp only [occurrences, List.not_mem_nil, false_iff, not_exists, not_and]
    intro p _ h
    simpa using h.getElem?_eq.1
  | case2 k c cs found rest h ih =>
    obtain ⟨hfound, hs⟩ := occurrence?_eq_some_iff.mp h
    have hfirst : Occurs (c :: cs) 0 found := occurs_zero_iff.mpr ⟨rest, h⟩
    rw [occurrences_of_eq_some h, List.mem_cons, ih, Prod.mk.injEq]
    constructor
    · rintro (⟨rfl, rfl⟩ | ⟨p, rfl, hp⟩)
      · exact ⟨0, rfl, hfirst⟩
      · exact ⟨(enclose found).length + p, by omega, by rwa [hs, occurs_append_iff]⟩
    · rintro ⟨p, rfl, hp⟩
      rcases Nat.eq_zero_or_pos p with rfl | hpos
      · exact .inl ⟨rfl, hp.eq hfirst⟩
      · obtain ⟨j, rfl⟩ := Nat.exists_eq_add_of_le (hfirst.le_of_lt hp hpos)
        rw [Nat.zero_add] at hp ⊢
        rw [hs, occurs_append_iff] at hp
        exact .inr ⟨j, by omega, hp⟩
  | case3 k c cs h ih =>
    rw [occurrences_of_eq_none h, ih]
    have hbehind : ∀ j, Occurs ([c] ++ cs) ([c].length + j) body ↔ _ := fun j => occurs_append_iff [c]
    constructor
    · rintro ⟨j, rfl, hj⟩
      exact ⟨1 + j, by omega, (hbehind j).mpr hj⟩
    · rintro ⟨p, rfl, hp⟩
      rcases Nat.eq_zero_or_pos p with rfl | hpos
      · obtain ⟨rest, hrest⟩ := occurs_zero_iff.mp hp
        rw [h] at hrest
        cases hrest
      · obtain ⟨j, rfl⟩ := Nat.exists_eq_add_of_le hpos
        exact ⟨j, by omega, (hbehind j).mp hp⟩

/-- The scan goes from left to right. -/
theorem pairwise_occurrences (k : Nat) (s : List Char) :
    (occurrences k s).Pairwise fun o o' => o.1 < o'.1 := by
  induction k, s using occurrences.induct with
  | case1 k => simp [occurrences]
  | case2 k c cs found rest h ih =>
    rw [occurrences_of_eq_some h, List.pairwise_cons]
    refine ⟨fun o ho => ?_, ih⟩
    obtain ⟨p, hp, -⟩ := mem_occurrences_iff.mp ho
    have : 0 < (enclose found).length := List.length_pos_iff.mpr (enclose_ne_nil found)
    omega
  | case3 k c cs h ih => rwa [occurrences_of_eq_none h]

end Occurs

/-! ## Ignored regions -/

/-- Whether `p` lies between the start of an ignored region and the next end of one. -/
def Between (starts ends : Nat → Prop) (p : Nat) : Prop :=
  ∃ i < p, starts i ∧ ∀ e, i < e → ends e → p < e

/-- Whether one of the directives is of this kind and stands at `p`. -/
def At (ds : List Directive) (kind : Kind) (p : Nat) : Prop :=
  ∃ d ∈ ds, d.kind = kind ∧ d.position = p

section Ignored

variable {ds : List Directive} {a d : Directive}

theorem not_between_head (h : ∀ d ∈ ds, a.position < d.position) :
    ¬ Between (At (a :: ds) .ignoreStart) (At (a :: ds) .ignoreEnd) a.position := by
  rintro ⟨i, hlt, ⟨x, hx, -, rfl⟩, -⟩
  rcases List.mem_cons.mp hx with rfl | hx
  · omega
  · have := h x hx
    omega

/-- What a directive in front changes for those behind it. -/
theorem between_cons_iff (h : ∀ d ∈ ds, a.position < d.position) (hd : d ∈ ds) :
    Between (At (a :: ds) .ignoreStart) (At (a :: ds) .ignoreEnd) d.position ↔
      (a.kind = .ignoreStart ∧ ∀ e ∈ ds, e.kind = .ignoreEnd → d.position < e.position) ∨
        Between (At ds .ignoreStart) (At ds .ignoreEnd) d.position := by
  constructor
  · rintro ⟨i, hlt, ⟨x, hx, hkind, rfl⟩, hends⟩
    rcases List.mem_cons.mp hx with rfl | hx
    · exact .inl ⟨hkind, fun e he hend =>
        hends _ (h e he) ⟨e, List.mem_cons_of_mem _ he, hend, rfl⟩⟩
    · refine .inr ⟨_, hlt, ⟨x, hx, hkind, rfl⟩, ?_⟩
      rintro _ hxe ⟨e, he, hend, rfl⟩
      exact hends _ hxe ⟨e, List.mem_cons_of_mem _ he, hend, rfl⟩
  · rintro (⟨hkind, hends⟩ | ⟨_, hlt, ⟨x, hx, hkind, rfl⟩, hends⟩)
    · refine ⟨_, h d hd, ⟨a, List.mem_cons_self .., hkind, rfl⟩, ?_⟩
      rintro _ hae ⟨e, he, hend, rfl⟩
      rcases List.mem_cons.mp he with rfl | he
      · omega
      · exact hends e he hend
    · refine ⟨_, hlt, ⟨x, List.mem_cons_of_mem _ hx, hkind, rfl⟩, ?_⟩
      rintro _ hxe ⟨e, he, hend, rfl⟩
      rcases List.mem_cons.mp he with rfl | he
      · have := h x hx
        omega
      · exact hends _ hxe ⟨e, he, hend, rfl⟩

/-- Which directives are left when those in ignored regions are left out. `ignoring` says whether the
list begins in such a region. -/
theorem mem_outsideIgnored_iff (h : ds.Pairwise fun d e => d.position < e.position) (ignoring : Bool) :
    d ∈ outsideIgnored ignoring ds ↔ d ∈ ds ∧
      ¬ Between (At ds .ignoreStart) (At ds .ignoreEnd) d.position ∧
      ¬ (ignoring = true ∧ ∀ e ∈ ds, e.kind = .ignoreEnd → d.position < e.position) := by
  induction ds generalizing ignoring with
  | nil => simp [outsideIgnored]
  | cons a ds ih =>
    rw [List.pairwise_cons] at h
    obtain ⟨ha, h⟩ := h
    have hself := not_between_head ha
    have hne : ∀ d ∈ ds, d ≠ a := fun d hd he => by
      have := ha d hd
      rw [he] at this
      omega
    by_cases hd : d ∈ ds
    · -- The first directive is another one.
      have hbetween := between_cons_iff ha hd
      have hadd := ha d hd
      cases ignoring with
      | false =>
        rw [outsideIgnored, if_neg Bool.false_ne_true, List.mem_cons, ih h, hbetween]
        simp only [hne d hd, hd, decide_eq_true_eq]
        tauto
      | true =>
        rw [outsideIgnored, if_pos rfl]
        by_cases hend : a.kind = .ignoreEnd
        · have hlast : ¬ ∀ e ∈ a :: ds, e.kind = .ignoreEnd → d.position < e.position := fun hall => by
            have := hall a (List.mem_cons_self ..) hend
            omega
          rw [if_pos hend, List.mem_cons, ih h, hbetween, iff_false_intro hlast]
          simp [hne d hd, hd, hend]
        · have hall : (∀ e ∈ a :: ds, e.kind = .ignoreEnd → d.position < e.position) ↔
              ∀ e ∈ ds, e.kind = .ignoreEnd → d.position < e.position := by
            simp [hend]
          rw [if_neg hend, ih h, hbetween, hall]
          simp only [hd, List.mem_cons]
          tauto
    · have hnot : ∀ b, d ∉ outsideIgnored b ds := fun b hmem => hd ((ih h b).mp hmem).1
      by_cases hda : d = a
      · subst hda
        cases ignoring with
        | false => simp [outsideIgnored, hself]
        | true =>
          by_cases hend : d.kind = .ignoreEnd
          · simp [outsideIgnored, hself, hend]
          · rw [outsideIgnored, if_pos rfl, if_neg hend]
            refine iff_of_false (hnot true) fun hout => hout.2.2 ⟨rfl, ?_⟩
            rw [List.forall_mem_cons]
            exact ⟨fun he => absurd he hend, fun e he _ => ha e he⟩
      · have : d ∉ outsideIgnored ignoring (a :: ds) := fun hmem =>
          (List.mem_cons.mp ((outsideIgnored_sublist ignoring _).mem hmem)).elim hda hd
        simp [this, hda, hd]

end Ignored

/-! ## Bodies -/

section Body

variable {body : List Char} {d : Directive} {p q : Nat}

theorem trim_eq_nil_iff : Text.trim body = [] ↔ ∀ c ∈ body, Text.isBlank c = true := by
  rw [Text.trim, Text.dropEndWhile, List.reverse_eq_nil_iff, List.dropWhile_eq_nil_iff]
  simp only [List.mem_reverse]
  constructor
  · intro h
    rw [← List.dropWhile_eq_nil_iff]
    by_contra hne
    obtain ⟨c, cs, hcs⟩ := List.exists_cons_of_ne_nil hne
    have hc := h c (by rw [hcs]; exact List.mem_cons_self ..)
    have := List.head_dropWhile_not Text.isBlank (l := body) hne
    simp only [hcs, List.head_cons] at this
    rw [hc] at this
    cases this
  · intro h c hc
    exact h c ((List.dropWhile_suffix _).mem hc)

/-- A body is one of a directive unless it is blank. -/
theorem ofBody?_isSome_iff : (ofBody? p body).isSome = true ↔ ∃ c ∈ body, Text.isBlank c = false := by
  have hblank : (Text.trim body).isEmpty = true ↔ ¬ ∃ c ∈ body, Text.isBlank c = false := by
    rw [List.isEmpty_iff, trim_eq_nil_iff]
    simp
  unfold ofBody?
  dsimp only
  split
  · next h => simp [hblank.mp h]
  · next h =>
    rw [hblank, not_not] at h
    split <;> simp [h]

theorem ofBody?_at (q : Nat) (h : ofBody? p body = some d) :
    ofBody? q body = some { d with position := q } := by
  unfold ofBody? at h ⊢
  dsimp only at h ⊢
  split at h
  · cases h
  · next hne =>
    rw [if_neg hne]
    split at h <;> cases h <;> rfl

theorem kind_of_ofBody? (h : ofBody? p body = some d) : d.kind = (classify (Text.trim body)).1 := by
  unfold ofBody? at h
  dsimp only at h
  split at h
  · cases h
  · split at h <;> cases h <;> rfl

theorem classify_eq_ignoreStart_iff : (classify body).1 = .ignoreStart ↔ body = ['-', '-'] := by
  constructor
  · intro h
    by_contra hne
    unfold classify at h
    rw [if_neg hne] at h
    repeat' split at h
    all_goals cases h
  · rintro rfl
    rfl

theorem classify_eq_ignoreEnd_iff : (classify body).1 = .ignoreEnd ↔ body = ['/', '-', '-'] := by
  constructor
  · intro h
    by_contra hne
    unfold classify at h
    rw [if_neg hne] at h
    repeat' split at h
    all_goals cases h
  · rintro rfl
    rfl

end Body

/-! ## The directives of a text -/

/-- Whether the start of an ignored region stands at `p`. -/
def StartsIgnored (s : List Char) (p : Nat) : Prop :=
  ∃ body, Occurs s p body ∧ Text.trim body = ['-', '-']

/-- Whether the end of an ignored region stands at `p`. -/
def EndsIgnored (s : List Char) (p : Nat) : Prop :=
  ∃ body, Occurs s p body ∧ Text.trim body = ['/', '-', '-']

/-- Whether `found` are the directives of `s`. -/
structure Finds (s : String) (found : List Directive) : Prop where
  ascending : found.Pairwise fun d e => d.position < e.position
  /-- Each of them stands where it says and is what the text between its braces says. -/
  occurs : ∀ d ∈ found, ∃ body, Occurs s.toList d.position body ∧ ofBody? d.position body = some d
  /-- Its position and its length are counted in characters. -/
  selects : ∀ d ∈ found, (s.toList.drop d.position).take d.length = d.text.toList
  /-- Only what is blank or in an ignored region is left out. -/
  found_iff : ∀ p body, Occurs s.toList p body → ((∃ d ∈ found, d.position = p) ↔
    (∃ c ∈ body, Text.isBlank c = false) ∧
      ¬ Between (StartsIgnored s.toList) (EndsIgnored s.toList) p)

section Finding

variable {s : String} {d : Directive} {p : Nat}

/-- The directives in a text, with those in ignored regions. -/
def allIn (s : List Char) : List Directive :=
  (occurrences 0 s).filterMap fun (position, body) => ofBody? position body

theorem mem_allIn_iff {s : List Char} :
    d ∈ allIn s ↔ ∃ body, Occurs s d.position body ∧ ofBody? d.position body = some d := by
  rw [allIn, List.mem_filterMap]
  constructor
  · rintro ⟨⟨p, body⟩, hmem, hbody⟩
    obtain ⟨j, hj, hoccurs⟩ := mem_occurrences_iff.mp hmem
    obtain rfl := (ofBody?_eq_some hbody).1
    rw [Nat.zero_add] at hj
    exact ⟨body, hj ▸ hoccurs, hbody⟩
  · rintro ⟨body, hoccurs, hbody⟩
    exact ⟨_, mem_occurrences_iff.mpr ⟨_, (Nat.zero_add _).symm, hoccurs⟩, hbody⟩

theorem pairwise_allIn (s : List Char) : (allIn s).Pairwise fun d e => d.position < e.position := by
  refine List.Pairwise.filterMap _ ?_ (pairwise_occurrences 0 s)
  intro o o' hlt d hd d' hd'
  rw [(ofBody?_eq_some hd).1, (ofBody?_eq_some hd').1]
  exact hlt

/-- Where the directives of a kind stand that is known from the text between the braces. -/
theorem at_allIn_iff {s : List Char} {kind : Kind} {written : List Char} (hne : written ≠ [])
    (hkind : ∀ body, (classify body).1 = kind ↔ body = written) :
    At (allIn s) kind p ↔ ∃ body, Occurs s p body ∧ Text.trim body = written := by
  constructor
  · rintro ⟨d, hd, hk, rfl⟩
    obtain ⟨body, hoccurs, hbody⟩ := mem_allIn_iff.mp hd
    exact ⟨body, hoccurs, (hkind _).mp ((kind_of_ofBody? hbody).symm.trans hk)⟩
  · rintro ⟨body, hoccurs, hwritten⟩
    have hsome : (ofBody? p body).isSome = true := by
      rw [ofBody?_isSome_iff]
      by_contra hblank
      exact hne (hwritten ▸ trim_eq_nil_iff.mpr (by simpa using hblank))
    obtain ⟨d, hd⟩ := Option.isSome_iff_exists.mp hsome
    obtain rfl := (ofBody?_eq_some hd).1
    exact ⟨d, mem_allIn_iff.mpr ⟨body, hoccurs, hd⟩,
      (kind_of_ofBody? hd).trans ((hkind _).mpr hwritten), rfl⟩

theorem mem_findAll_iff : d ∈ findAll s ↔ d ∈ allIn s.toList ∧
    ¬ Between (StartsIgnored s.toList) (EndsIgnored s.toList) d.position := by
  have hstarts : At (allIn s.toList) .ignoreStart = StartsIgnored s.toList := funext fun p =>
    propext (at_allIn_iff (by simp) fun _ => classify_eq_ignoreStart_iff)
  have hends : At (allIn s.toList) .ignoreEnd = EndsIgnored s.toList := funext fun p =>
    propext (at_allIn_iff (by simp) fun _ => classify_eq_ignoreEnd_iff)
  have := mem_outsideIgnored_iff (d := d) (pairwise_allIn s.toList) false
  rw [hstarts, hends] at this
  show d ∈ outsideIgnored false (allIn s.toList) ↔ _
  simpa using this

theorem findAll_finds (s : String) : Finds s (findAll s) where
  ascending := (pairwise_allIn s.toList).sublist (outsideIgnored_sublist false _)
  occurs d hd := mem_allIn_iff.mp (mem_findAll_iff.mp hd).1
  selects d hd := by
    obtain ⟨body, hoccurs, hbody⟩ := mem_allIn_iff.mp (mem_findAll_iff.mp hd).1
    obtain ⟨rest, hrest⟩ := hoccurs.isPrefix
    rw [← (ofBody?_eq_some hbody).2.1] at hrest
    rw [← hrest, Directive.length, ← String.length_toList, List.take_left]
  found_iff p body hoccurs := by
    rw [← ofBody?_isSome_iff (p := p)]
    constructor
    · rintro ⟨d, hd, rfl⟩
      obtain ⟨hmem, hout⟩ := mem_findAll_iff.mp hd
      obtain ⟨body', hoccurs', hbody'⟩ := mem_allIn_iff.mp hmem
      rw [hoccurs.eq hoccurs', hbody']
      exact ⟨rfl, hout⟩
    · rintro ⟨hsome, hout⟩
      obtain ⟨d, hd⟩ := Option.isSome_iff_exists.mp hsome
      obtain rfl := (ofBody?_eq_some hd).1
      exact ⟨d, mem_findAll_iff.mpr ⟨mem_allIn_iff.mpr ⟨body, hoccurs, hd⟩, hout⟩, rfl⟩

/-! ## Parsing a single directive -/

theorem parse?_eq_some_iff : parse? s = some d ↔
    ∃ body, occurrence? s.toList = some (body, []) ∧ ofBody? 0 body = some d := by
  unfold parse?
  split
  · next body h => simp [h]
  · next h =>
    simp only [reduceCtorEq, false_iff, not_exists, not_and]
    exact fun body hbody _ => h body hbody

/-- A directive is parsed as itself. -/
theorem parse?_text (h : d ∈ findAll s) : parse? d.text = some { d with position := 0 } := by
  obtain ⟨body, hoccurs, hbody⟩ := (findAll_finds s).occurs d h
  refine parse?_eq_some_iff.mpr ⟨body, ?_, ofBody?_at 0 hbody⟩
  rw [(ofBody?_eq_some hbody).2.1, occurrence?_eq_some_iff, List.append_nil]
  exact ⟨hoccurs.noBrace, rfl⟩

/-- Parsing succeeds if the whole text is a directive. -/
theorem parse?_eq_some_iff_findAll :
    parse? s = some d ↔ findAll s = [d] ∧ d.position = 0 ∧ d.length = s.length := by
  rw [parse?_eq_some_iff]
  constructor
  · rintro ⟨body, hoccurrence, hbody⟩
    obtain ⟨hpos, htext, -⟩ := ofBody?_eq_some hbody
    have hs : s.toList = d.text.toList := by
      rw [eq_append_of_occurrence? hoccurrence, htext, List.append_nil]
    refine ⟨?_, hpos, by rw [Directive.length, ← String.length_toList, ← String.length_toList, hs]⟩
    rw [findAll, occurrences_of_eq_some hoccurrence]
    simp [occurrences, hbody, outsideIgnored]
  · rintro ⟨hfound, hpos, hlength⟩
    have hmem : d ∈ findAll s := by
      rw [hfound]
      exact List.mem_cons_self ..
    obtain ⟨body, hoccurs, hbody⟩ := (findAll_finds s).occurs d hmem
    rw [hpos] at hoccurs hbody
    obtain ⟨rest, hrest⟩ := occurs_zero_iff.mp hoccurs
    refine ⟨body, ?_, hbody⟩
    -- Nothing follows, since the directive is as long as the text.
    have hs := congrArg List.length (eq_append_of_occurrence? hrest)
    rw [List.length_append, ← (ofBody?_eq_some hbody).2.1, String.length_toList, String.length_toList,
      ← hlength, Directive.length] at hs
    rwa [List.eq_nil_of_length_eq_zero (show rest.length = 0 by omega)] at hrest

/-- Finding directives: double braces with no brace between them do not overlap, all of them are found
that are not blank and not in an ignored region, and parsing a single directive agrees with it. -/
theorem findAll_exact (s : String) :
    (∀ p q body body', Occurs s.toList p body → Occurs s.toList q body' →
      (p = q ∧ body = body') ∨ p + (enclose body).length ≤ q ∨ q + (enclose body').length ≤ p) ∧
    Finds s (findAll s) ∧
    (∀ d ∈ findAll s, parse? d.text = some { d with position := 0 }) ∧
    ∀ d, parse? s = some d ↔ findAll s = [d] ∧ d.position = 0 ∧ d.length = s.length := by
  refine ⟨fun p q body body' h h' => ?_, findAll_finds s, fun d => parse?_text, fun d =>
    parse?_eq_some_iff_findAll⟩
  rcases Nat.lt_trichotomy p q with hlt | rfl | hlt
  · exact .inr (.inl (h.le_of_lt h' hlt))
  · exact .inl ⟨rfl, h.eq h'⟩
  · exact .inr (.inr (h'.le_of_lt h hlt))

-- One brace too many in front does not hide a directive, and positions count characters.
example : (findAll "é\x7b{{a}}{{ }}{{b}}").map (·.position) = [2, 12] := by
  cbv

end Finding

end WordTemplate.Directive
