import Mathlib.Data.List.Nodup
import Mathlib.Data.List.Perm.Subperm
import WordTemplate.Proofs.Finishing

/-!
# Numbers of drawings

After drawings have got numbers of their own no two drawings of a scope have the same number, and then there
is nothing to do for them any more.

* `renumberDrawings_distinct`: the numbers are distinct afterwards.
* `DistinctDrawings.renumberDrawings_eq`: distinct numbers stay as they are.
-/

namespace WordTemplate

open Xml Forest

/-! ## Numerals -/

namespace Text

theorem digitValue?_of_isDigit {c : Char} (h : c.isDigit = true) :
    digitValue? 10 c = some (c.toNat - '0'.toNat) := by
  simp only [Char.isDigit, Bool.and_eq_true, decide_eq_true_eq] at h
  have hle : c.toNat ≤ 57 := h.2
  have hrange : '0' ≤ c ∧ c ≤ '9' := h
  have hlt : c.toNat - '0'.toNat < 10 := by
    have : '0'.toNat = 48 := rfl
    omega
  rw [digitValue?, if_pos hrange, Option.filter_some, if_pos (by simpa using hlt)]

/-- The value of a numeral in digits. -/
theorem digitsValue?_of_isDigit {cs : List Char} (h : ∀ c ∈ cs, c.isDigit = true) (n : Nat) :
    digitsValue? 10 n cs = some (Nat.ofDigitChars 10 cs n) := by
  induction cs generalizing n with
  | nil => rfl
  | cons c cs ih =>
    rw [List.forall_mem_cons] at h
    rw [digitsValue?, digitValue?_of_isDigit h.1, Option.bind_some, ih h.2, Nat.ofDigitChars_cons,
      Nat.mul_comm]

/-- A written number is read as itself if it is below the bound. -/
theorem readNatural?_toString (bound n : Nat) :
    readNatural? 10 bound (toString n).toList = (some n).filter (· < bound) := by
  rw [Nat.toString_eq_ofList_toDigits, String.toList_ofList]
  have hdigits : ∀ c ∈ Nat.toDigits 10 n, c.isDigit = true := fun c hc =>
    Nat.isDigit_of_mem_toDigits (by decide) (by decide) hc
  have hread : readDigits? 10 (Nat.toDigits 10 n) = some n := by
    rw [readDigits?, if_neg (by simp), digitsValue?_of_isDigit hdigits, Nat.ofDigitChars_ten_toDigits]
  unfold readNatural?
  split
  · next rest hrest =>
    -- No digit is a plus sign.
    have := hdigits '+' (by rw [hrest]; exact List.mem_cons_self ..)
    cases this
  · exact congrArg (Option.filter _) hread

theorem eq_of_readNatural?_toString {bound n m : Nat}
    (h : readNatural? 10 bound (toString n).toList = some m) : m = n := by
  rw [readNatural?_toString, Option.filter_eq_some_iff] at h
  exact (Option.some.inj h.1).symm

end Text

/-! ## Free numbers -/

/-- There are more numbers to choose from than numbers in use. -/
theorem Xml.Document.firstUnused_not_mem (used : List Nat) (first : Nat) :
    Document.firstUnused used first ∉ used := by
  rw [Document.firstUnused]
  cases hfind : (List.range' first (used.length + 1)).find? (!used.contains ·) with
  | some k =>
    have := List.find?_some hfind
    simpa using this
  | none =>
    have hsubset : List.range' first (used.length + 1) ⊆ used := fun k hk => by
      simpa using List.find?_eq_none.mp hfind k hk
    have hlength := ((List.nodup_range' 1).subperm hsubset).length_le
    rw [List.length_range'] at hlength
    omega

namespace Xml

/-- The number of a drawing, if it is one of 32 bits. -/
def Label.drawingNumber? (l : Label) : Option Nat :=
  if l.isNamed Word.drawing then
    (l.attribute? "id").bind fun id => Text.readNatural? 10 Text.bound32 id.toList
  else none

theorem Label.eq_of_drawingNumber?_setAttribute {l : Label} {k number : Nat}
    (h : (l.setAttribute "id" (toString k)).drawingNumber? = some number) : number = k := by
  rw [drawingNumber?] at h
  split at h
  · next hname =>
    rw [isNamed_setAttribute] at hname
    rw [attribute?_setAttribute_self (WellMarked.isElement_of_isNamed hname), Option.bind_some] at h
    exact Text.eq_of_readNatural?_toString h
  · cases h

namespace Document

variable {d d' : Document} {root n m : NodeId} {found : List (NodeId × Nat)} {used seen : List Nat}
  {next number : Nat}

def drawingNumber? (d : Document) (n : NodeId) : Option Nat :=
  (d.label? n).bind Label.drawingNumber?

theorem drawings_eq (d : Document) (root : NodeId) : d.drawings root =
    (d.nodesBelow root).filterMap fun node => node.label.drawingNumber?.map (node.id, ·) := by
  unfold drawings
  refine congrArg (List.filterMap · _) (funext fun node => ?_)
  rw [Label.drawingNumber?]
  split
  · rw [Option.map_bind]
    rfl
  · rfl

theorem WellFormed.mem_drawings_iff (wf : d.WellFormed) :
    (n, number) ∈ d.drawings root ↔ n ∈ d.descendants root ∧ d.drawingNumber? n = some number := by
  rw [drawings_eq, List.mem_filterMap]
  constructor
  · rintro ⟨node, hnode, hnumber⟩
    obtain ⟨k, hk, he⟩ := Option.map_eq_some_iff.mp hnumber
    cases he
    refine ⟨List.mem_map_of_mem hnode, ?_⟩
    rw [drawingNumber?, wf.label?_of_mem_nodesBelow hnode]
    exact hk
  · rintro ⟨hn, hnumber⟩
    obtain ⟨l, hl, hnumber⟩ := Option.bind_eq_some_iff.mp hnumber
    exact ⟨⟨n, l⟩, wf.mem_nodesBelow_iff.mpr ⟨hn, hl⟩, by rw [hnumber]; rfl⟩

theorem WellFormed.nodup_drawings (wf : d.WellFormed) : ((d.drawings root).map Prod.fst).Nodup := by
  have hsublist : ((d.drawings root).map Prod.fst).Sublist (d.descendants root) := by
    rw [drawings_eq, descendants]
    induction d.nodesBelow root with
    | nil => exact .slnil
    | cons node nodes ih =>
      rw [List.filterMap_cons]
      cases node.label.drawingNumber? with
      | none => exact ih.cons _
      | some k => exact ih.cons_cons _
  exact wf.nodup_descendants.sublist hsublist

/-! ## Giving numbers -/

/-- Whether no two drawings below `root` have the same number. -/
def DistinctDrawings (d : Document) (root : NodeId) : Prop :=
  ∀ n ∈ d.descendants root, ∀ m ∈ d.descendants root, ∀ number,
    d.drawingNumber? n = some number → d.drawingNumber? m = some number → n = m

/-- Drawings with distinct numbers that have not been seen keep them. -/
theorem renumber_eq_self (hnodup : (found.map Prod.snd).Nodup) (hseen : ∀ e ∈ found, e.2 ∉ seen) :
    renumber used seen next d found = d := by
  induction found generalizing seen with
  | nil => rfl
  | cons e found ih =>
    obtain ⟨n, number⟩ := e
    rw [List.map_cons, List.nodup_cons] at hnodup
    rw [List.forall_mem_cons] at hseen
    rw [renumber, if_neg (by simpa using hseen.1)]
    refine ih hnodup.2 fun e he hmem => ?_
    rcases List.mem_cons.mp hmem with heq | hmem
    · exact hnodup.1 (List.mem_map.mpr ⟨e, he, heq⟩)
    · exact hseen.2 e he hmem

theorem WellFormed.distinctDrawings_iff (wf : d.WellFormed) :
    d.DistinctDrawings root ↔ ((d.drawings root).map Prod.snd).Nodup := by
  constructor
  · refine fun h => List.Nodup.map_on (fun e he e' he' heq => ?_) wf.nodup_drawings.of_map
    obtain ⟨hn, hnumber⟩ := wf.mem_drawings_iff.mp he
    obtain ⟨hm, hnumber'⟩ := wf.mem_drawings_iff.mp he'
    exact Prod.ext (h _ hn _ hm _ hnumber (heq ▸ hnumber')) heq
  · intro h n hn m hm number hnumber hnumber'
    have he := wf.mem_drawings_iff.mpr ⟨hn, hnumber⟩
    have he' := wf.mem_drawings_iff.mpr ⟨hm, hnumber'⟩
    exact congrArg Prod.fst (List.inj_on_of_nodup_map h he he' rfl)

theorem DistinctDrawings.renumberDrawings_eq (h : d.DistinctDrawings root) (wf : d.WellFormed) :
    d.renumberDrawings root = d :=
  renumber_eq_self (wf.distinctDrawings_iff.mp h) fun _ _ => List.not_mem_nil

/-- What giving numbers to the drawings `found` comes to. -/
structure Renumbered (d d' : Document) (found : List (NodeId × Nat)) (seen : List Nat) : Prop where
  label?_eq : ∀ m, m ∉ found.map Prod.fst → d'.label? m = d.label? m
  not_mem : ∀ n ∈ found.map Prod.fst, ∀ number, d'.drawingNumber? n = some number → number ∉ seen
  eq : ∀ n ∈ found.map Prod.fst, ∀ m ∈ found.map Prod.fst, ∀ number,
    d'.drawingNumber? n = some number → d'.drawingNumber? m = some number → n = m

/-- One drawing more, which has at most the number `k`. -/
theorem Renumbered.cons {k : Nat} {d₁ : Document} (h : Renumbered d₁ d' found (k :: seen))
    (hn : n ∉ found.map Prod.fst) (hk : k ∉ seen) (hlabel : ∀ m, m ≠ n → d₁.label? m = d.label? m)
    (hnumber : ∀ number, d₁.drawingNumber? n = some number → number = k) (k' : Nat) :
    Renumbered d d' ((n, k') :: found) seen := by
  have hself : ∀ number, d'.drawingNumber? n = some number → number = k := fun number hnum => by
    rw [drawingNumber?, h.label?_eq n hn] at hnum
    exact hnumber number hnum
  have hother : ∀ m ∈ found.map Prod.fst, ∀ number, d'.drawingNumber? m = some number →
      number ≠ k ∧ number ∉ seen := fun m hm number hnum => by
    have := h.not_mem m hm number hnum
    rwa [List.mem_cons, not_or] at this
  refine ⟨fun m hm => ?_, fun m hm number hnum => ?_, fun m hm m' hm' number hnum hnum' => ?_⟩
  · rw [List.map_cons, List.mem_cons, not_or] at hm
    rw [h.label?_eq m hm.2, hlabel m hm.1]
  · rcases List.mem_cons.mp hm with rfl | hm
    · exact hself number hnum ▸ hk
    · exact (hother m hm number hnum).2
  · rcases List.mem_cons.mp hm with rfl | hin
    · rcases List.mem_cons.mp hm' with rfl | hin'
      · rfl
      · exact absurd (hself number hnum) (hother m' hin' number hnum').1
    · rcases List.mem_cons.mp hm' with rfl | hin'
      · exact absurd (hself number hnum') (hother m hin number hnum).1
      · exact h.eq m hin m' hin' number hnum hnum'

/-- Every drawing in the list gets a number that no other one has. -/
theorem renumber_renumbered (wf : d.WellFormed) (hnodup : (found.map Prod.fst).Nodup)
    (hfound : ∀ e ∈ found, d.drawingNumber? e.1 = some e.2) (hused : ∀ e ∈ found, e.2 ∈ used)
    (hseen : seen ⊆ used) : Renumbered d (renumber used seen next d found) found seen := by
  induction found generalizing d used seen next with
  | nil => exact ⟨fun _ _ => rfl, by simp, by simp⟩
  | cons e found ih =>
    obtain ⟨n, number⟩ := e
    rw [List.map_cons, List.nodup_cons] at hnodup
    rw [List.forall_mem_cons] at hfound hused
    rw [renumber]
    split
    · dsimp only
      have hfree := firstUnused_not_mem used next
      generalize firstUnused used next = free at hfree ⊢
      have hlabel : ∀ m, m ≠ n → (d.setAttribute n "id" (toString free)).label? m = d.label? m :=
        fun m hm => wf.label?_relabel_ne hm _
      refine (ih (wf.grows_relabel n _).wellFormed hnodup.2 (fun e he => ?_)
        (fun e he => List.mem_cons_of_mem _ (hused.2 e he))
        (List.cons_subset_cons _ hseen)).cons hnodup.1 (fun hmem => hfree (hseen hmem)) hlabel
        (fun k hk => ?_) number
      · have hne : e.1 ≠ n := fun heq => hnodup.1 (List.mem_map.mpr ⟨e, he, heq⟩)
        rw [drawingNumber?]
        exact (congrArg (·.bind Label.drawingNumber?) (hlabel _ hne)).trans (hfound.2 e he)
      · rw [drawingNumber?, wf.label?_relabel_self, Option.bind_map] at hk
        obtain ⟨l, -, hk⟩ := Option.bind_eq_some_iff.mp hk
        exact Label.eq_of_drawingNumber?_setAttribute hk
    · next hnot =>
      have hnot : number ∉ seen := by simpa using hnot
      exact (ih wf hnodup.2 hfound.2 hused.2 (List.cons_subset.mpr ⟨hused.1, hseen⟩)).cons hnodup.1 hnot
        (fun _ _ => rfl) (fun k hk => Option.some.inj (hk.symm.trans hfound.1)) number

/-- No two drawings have the same number afterwards. -/
theorem renumberDrawings_distinct (wf : d.WellFormed) (hroot : root ∈ d.ids) :
    (d.renumberDrawings root).DistinctDrawings root := by
  have hlessens : Lessens (fun _ => True) "id" d (d.renumberDrawings root) :=
    renumber_lessens wf trivial (fun _ _ _ _ _ => trivial) ..
  have hrenumbered : Renumbered d (d.renumberDrawings root) (d.drawings root) [] :=
    renumber_renumbered wf wf.nodup_drawings (fun e he => (wf.mem_drawings_iff.mp he).2)
      (fun e he => List.mem_map_of_mem he) (List.nil_subset _)
  -- What has a number had one before.
  have hmem : ∀ n ∈ (d.renumberDrawings root).descendants root, ∀ number,
      (d.renumberDrawings root).drawingNumber? n = some number → n ∈ (d.drawings root).map Prod.fst := by
    intro n hn number hnumber
    by_contra hnot
    rw [drawingNumber?, hrenumbered.label?_eq n hnot] at hnumber
    exact hnot (List.mem_map_of_mem (f := Prod.fst) (wf.mem_drawings_iff.mpr
      ⟨hlessens.descendants_subset wf hroot hn, hnumber⟩))
  exact fun n hn m hm number hnumber hnumber' =>
    hrenumbered.eq n (hmem n hn _ hnumber) m (hmem m hm _ hnumber') number hnumber hnumber'

end Document

end Xml

end WordTemplate
