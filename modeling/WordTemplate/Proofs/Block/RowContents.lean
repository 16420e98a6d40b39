import WordTemplate.Proofs.Block.Plots
import WordTemplate.Proofs.Block.Reinsertion
import WordTemplate.Proofs.Block.Rows
import WordTemplate.Proofs.Xml.Dividing

/-!
# Taking rows out

A block around rows of a table has one section, with the bounds of the section next to its own. When the
contents are taken out, the rows go with the section, the bounds of the section go with the block, and the
table is left with the bounds of the block. The blocks in the rows stay in their plots.

* `exists_emptied`: placing such a block and taking its contents out.
-/

namespace WordTemplate

open Xml Forest Xml.Document

variable {d d' d'' : Document} {n m p a b start stop T : NodeId} {l mid r : List NodeId} {K : Label → Prop}

namespace Xml.Document

theorem WellFormed.between_of_children (wf : d.WellFormed) (h : d.children p = l ++ a :: (mid ++ b :: r)) :
    d.between a b = mid := by
  have h' : d.children p = (l ++ a :: mid) ++ b :: r := by simpa using h
  have ha : a ∈ d.children p := by simp [h]
  have hb : b ∈ d.children p := by simp [h]
  rw [between, wf.index?_of_children h, wf.index?_of_children h']
  dsimp only
  rw [if_pos ((wf.parent?_eq_some_iff.mpr ha).trans (wf.parent?_eq_some_iff.mpr hb).symm),
    wf.siblings_of_mem_children ha, h', List.take_left' rfl]
  rw [show l ++ a :: mid = (l ++ [a]) ++ mid by simp, List.drop_left' (by simp)]

theorem WellFormed.parent?_detachAll_of_not_mem (wf : d.WellFormed) {ns : List NodeId} (hn : n ∉ ns) :
    (d.detachAll ns).parent? n = d.parent? n :=
  wf.parent?_congr (wf.moves_detachAll ns).grows.wellFormed fun q => by simp [wf.children_detachAll, hn]

/-- Nodes below one parent are taken out, so the others have the same children. -/
theorem WellFormed.children_detachAll_of_ne (wf : d.WellFormed) {ns : List NodeId}
    (hns : ∀ n ∈ ns, n ∈ d.children p) (hne : n ≠ p) : (d.detachAll ns).children n = d.children n := by
  rw [wf.children_detachAll, List.filter_eq_self]
  intro c hc
  refine decide_eq_true fun hmem => hne ?_
  exact Option.some.inj ((wf.parent?_eq_some_iff.mpr hc).symm.trans (wf.parent?_eq_some_iff.mpr (hns c hmem)))

theorem WellFormed.children_detachAll_of_eq (wf : d.WellFormed) (h : d.children p = l ++ (mid ++ r)) :
    (d.detachAll mid).children p = l ++ r := by
  have hnd := wf.nodup_children p
  rw [h, List.nodup_append, List.nodup_append] at hnd
  obtain ⟨-, ⟨-, -, hr⟩, hl⟩ := hnd
  have hkeep : l.filter (· ∉ mid) = l := List.filter_eq_self.mpr fun c hc =>
    decide_eq_true fun hmem => hl c hc c (List.mem_append_left _ hmem) rfl
  have hkeep' : r.filter (· ∉ mid) = r := List.filter_eq_self.mpr fun c hc =>
    decide_eq_true fun hmem => hr c hmem c hc rfl
  have hgone : mid.filter (· ∉ mid) = [] := List.filter_eq_nil_iff.mpr fun c hc => by simpa using hc
  rw [wf.children_detachAll, h, List.filter_append, List.filter_append, hkeep, hkeep', hgone, List.nil_append]

theorem IsBelow.congr (h : d.IsBelow m n) (hparent : ∀ c, (d.parent? c).isSome → d'.parent? c = d.parent? c) :
    d'.IsBelow m n :=
  Relation.TransGen.mono (fun c q (hc : d.parent? c = some q) => (hparent c (by rw [hc]; rfl)).trans hc) _ _ h

end Xml.Document

namespace Block

namespace Surrounds

variable {q : Placed}

theorem label?_eq (h : Surrounds d d' T l mid r q) (hn : n ∈ d.ids) : d'.label? n = d.label? n := by
  by_cases hne : n = T
  · exact hne ▸ h.label?_table
  · exact (h.unchanged n hn hne).label?_eq

theorem parent?_eq (h : Surrounds d d' T l mid r q) (hn : n ∈ d.ids) : d'.parent? n = d.parent? n := by
  by_cases hne : n = T
  · exact hne ▸ h.parent?_table
  · exact (h.unchanged n hn hne).parent?_eq

theorem isNamed_eq (h : Surrounds d d' T l mid r q) (hn : n ∈ d.ids) (name : String) :
    d'.isNamed n name = d.isNamed n name := by
  rw [isNamed, isNamed, name?, name?, h.label?_eq hn]

theorem isBelow (h : Surrounds d d' T l mid r q) (wf : d.WellFormed) (hm : d.IsBelow m n) : d'.IsBelow m n :=
  hm.congr fun _ hc => h.parent?_eq (wf.mem_ids_of_parent? hc)

theorem spans (h : Surrounds d d' T l mid r q) (wf : d.WellFormed) (ha : a ∈ d.children T)
    (hs : Spans d start stop a b) : Spans d' start stop a b := by
  cases hs with
  | rows hne hstart hstop => exact .rows hne (h.isBelow wf hstart) (h.isBelow wf hstop)
  | cells he hx hy hne hstart hstop =>
    have hsame := h.unchanged a (wf.mem_ids_of_mem_children ha) fun hT =>
      wf.not_mem_children_self T (hT ▸ ha)
    have hcells : d'.childrenNamed a Word.cell = d.childrenNamed a Word.cell :=
      childrenNamed_congr hsame.children_eq (fun c hc => by
        rw [name?, name?, h.label?_eq (wf.mem_ids_of_mem_children hc)]) _
    exact .cells he (hcells ▸ hx) (hcells ▸ hy) hne (h.isBelow wf hstart) (h.isBelow wf hstop)

end Surrounds

/-! ## Contents have no parent -/

theorem parent?_extractAll (wf : d.WellFormed) (P : Forest Placed) (hn : d.parent? n = none) :
    (extractAll P d).2.parent? n = none := by
  cases hp : (extractAll P d).2.parent? n with
  | none => rfl
  | some q =>
    have wf' := (moves_extractAll wf P).grows.wellFormed
    have hmem := children_extractAll_subset wf P q (wf'.parent?_eq_some_iff.mp hp)
    rw [← wf.parent?_eq_some_iff, hn] at hmem
    cases hmem

/-- The contents of blocks are taken out of their parents. -/
theorem detached_extractAll (wf : d.WellFormed) (P : Forest Placed) :
    Detached (extractAll P d).2 (extractAll P d).1 := by
  induction P generalizing d with
  | nil => exact fun t ht => by cases ht
  | cons p inner rest ihi ihr =>
    have wf₁ := (moves_extractAll wf inner).grows.wellFormed
    have h₂ := wf₁.moves_detachAll ((extractAll inner d).2.between p.first p.last)
    have h₃ := moves_extractAll h₂.grows.wellFormed rest
    have hgrows := h₂.grows.trans h₃.grows
    -- What has no parent after the inner contents were taken out, or is content of this block.
    have hkeep : ∀ c ∈ (extractAll inner d).2.ids,
        c ∈ (extractAll inner d).2.between p.first p.last ∨ (extractAll inner d).2.parent? c = none →
        c ∈ (extractAll (cons p inner rest) d).2.ids ∧ (extractAll (cons p inner rest) d).2.parent? c = none := by
      intro c hc h
      rw [extractAll_cons_eq]
      exact ⟨hgrows.mem_ids c hc, parent?_extractAll h₂.grows.wellFormed rest (parent?_detachAll wf₁ h)⟩
    intro t ht c hc
    rw [extractAll_cons_eq] at ht
    rcases List.mem_cons.mp ht with rfl | ht
    · refine hkeep c ?_ (.inl hc)
      obtain ⟨q, -, hq⟩ := wf₁.exists_of_mem_siblings (mem_siblings_of_mem_between hc)
      exact wf₁.mem_ids_of_mem_children hq
    · rcases List.mem_append.mp ht with ht | ht
      · obtain ⟨hmem, hnone⟩ := ihi wf t ht c hc
        exact hkeep c hmem (.inr hnone)
      · rw [extractAll_cons_eq]
        exact ihr h₂.grows.wellFormed t ht c hc

/-! ## What is in no plot -/

theorem isCandidate_eq_false (hn : T ∉ d.ancestors n) : isCandidate d T n = false := by
  rw [isCandidate, List.contains_eq_mem, decide_eq_false hn, Bool.and_false]

theorem plotOf?_of_mem_children (wf : d.WellFormed) (hn : n ∈ d.children p) (hp : plotOf? d T p = none)
    (hnot : isCandidate d T p = false) : plotOf? d T n = none := by
  rw [plotOf?_of_parent? wf (wf.parent?_eq_some_iff.mpr hn), hp, hnot]
  rfl

theorem not_mem_ancestors (wf : d.WellFormed) (hn : n = T ∨ d.IsBelow T n) : T ∉ d.ancestors n := by
  intro hmem
  rw [wf.mem_ancestors_iff_isBelow] at hmem
  rcases hn with rfl | hn
  · exact wf.not_isBelow_self n hmem
  · exact wf.not_isBelow_self n (hmem.trans hn)

/-- What stays of a table, of its rows and of what is above it when something is done in its plots. -/
structure Stays (d d' : Document) (T : NodeId) : Prop where
  grows : d.Grows d'
  above : ∀ n ∈ d.ids, n = T ∨ d.IsBelow T n → d.Unchanged d' n
  label?_eq : ∀ n ∈ d.children T, d'.label? n = d.label? n
  row : ∀ n ∈ d.children T, d.isNamed n Word.row = true → d.Unchanged d' n
  cell : ∀ n ∈ d.children T, d.isNamed n Word.row = true → ∀ c ∈ d.children n, d'.label? c = d.label? c

theorem stays_of_inPlots {o' : NodeId → Option NodeId} (wf : d.WellFormed)
    (h : InPlots (IsPlot d T) (plotOf? d T) d o' d') : Stays d d' T := by
  have habove : ∀ n, n = T ∨ d.IsBelow T n → plotOf? d T n = none ∧ isCandidate d T n = false := fun n hn =>
    ⟨plotOf?_eq_none (not_mem_ancestors wf hn) wf, isCandidate_eq_false (not_mem_ancestors wf hn)⟩
  have hchild : ∀ n ∈ d.children T, plotOf? d T n = none := fun n hn =>
    plotOf?_of_mem_children wf hn (habove T (.inl rfl)).1 (habove T (.inl rfl)).2
  have hrow : ∀ n, d.isNamed n Word.row = true → isCandidate d T n = false := fun n hn => by
    rw [isCandidate, isNamed_eq_false_of_ne hn (by decide), Bool.false_and]
  refine ⟨h.grows, fun n hmem hn => ?_, fun n hn => h.label?_eq n (wf.mem_ids_of_mem_children hn) (hchild n hn),
    fun n hn hname => ?_, fun n hn hname c hc => ?_⟩
  · exact h.unchanged n hmem (habove n hn).1 fun hX => by simpa [(habove n hn).2] using hX.1
  · exact h.unchanged n (wf.mem_ids_of_mem_children hn) (hchild n hn) fun hX => by simpa [hrow n hname] using hX.1
  · exact h.label?_eq c (wf.mem_ids_of_mem_children hc)
      (plotOf?_of_mem_children wf hc (hchild n hn) (hrow n hname))

/-! ## Labels that are no anchor of a block -/

/-- Whether a label is not that of the anchor of the first block. -/
def IsNoAnchor (l : Label) : Prop :=
  l.attribute? Word.insertionAttribute ≠ some (startPoint .collectionStart 0).id

theorem id_endPoint_ne (kind kind' : Directive.Kind) (number number' : Nat) :
    (endPoint kind number).id ≠ (startPoint kind' number').id := fun he => by
  have hprefix := isPrefixOf_endMark_endPoint kind number
  rw [he, isPrefixOf_endMark_startPoint] at hprefix
  cases hprefix

theorem isNoAnchor_setAttribute {value : String} (h : value ≠ (startPoint .collectionStart 0).id) (l : Label) :
    IsNoAnchor (l.setAttribute Word.insertionAttribute value) := by
  cases l with
  | text content => exact nofun
  | element tag =>
    rw [IsNoAnchor, Label.attribute?_setAttribute_self rfl]
    exact fun he => h (Option.some.inj he)

theorem allowsBounds_isNoAnchor : AllowsBounds IsNoAnchor where
  paragraph := nofun
  row := nofun
  first l _ _ hnumber := isNoAnchor_setAttribute (fun he => hnumber (id_startPoint_inj he)) l
  last l kind number := isNoAnchor_setAttribute (id_endPoint_ne kind _ number _) l

/-! ## A block and its section -/

/-- Whether `d'` is `d` with the bounds of a block and those of its section around the children `mid` of `T`. -/
structure Frames (d d' : Document) (T : NodeId) (l mid r : List NodeId) (first first' last' last : NodeId) :
    Prop where
  grows : d.Grows d'
  children_eq : d'.children T = l ++ first :: first' :: (mid ++ last' :: last :: r)
  first_not_mem : first ∉ d.ids
  mem_or_eq : ∀ n ∈ d'.ids, n ∈ d.ids ∨ n ∈ [first, first', last', last]
  label?_eq : ∀ n ∈ d.ids, d'.label? n = d.label? n
  parent?_eq : ∀ n ∈ d.ids, d'.parent? n = d.parent? n
  children_old : ∀ n ∈ d.ids, n ≠ T → d'.children n = d.children n
  label?_first : d'.label? first = some (anchorLabel Word.row .collectionStart 0)
  label?_first' : d'.label? first' = some (anchorLabel Word.row .content 1)
  label?_last' : d'.label? last' = some (endLabel .content 1)
  label?_last : d'.label? last = some (endLabel .collectionStart 0)
  children_first' : d'.children first' = []
  children_last' : d'.children last' = []
  children_last : d'.children last = []

section Frames

variable {o c : Marker} {inner : Forest Block} {first first' last' last : NodeId}

/-- The block is placed before its section, and both around the same rows. -/
theorem Surrounds.frames (h : Surrounds d d' T l mid r ⟨0, ⟨.collectionStart, o, c⟩, first, last⟩)
    (h' : Surrounds d' d'' T (l ++ [first]) mid (last :: r) ⟨1, ⟨.content, o, c⟩, first', last'⟩)
    (hT : T ∈ d.ids) : Frames d d'' T l mid r first first' last' last := by
  have wf' := h.grows.wellFormed
  have hfirst : first ∈ d'.ids := wf'.mem_ids_of_label? h.label?_first
  have hlast := wf'.mem_ids_of_label? h.label?_last
  have hne : last ≠ T := fun he => h.last_not_mem (he ▸ hT)
  exact {
    grows := h.grows.trans h'.grows
    children_eq := by rw [h'.children_eq]; simp
    first_not_mem := h.first_not_mem
    mem_or_eq := fun n hn => by
      rcases h'.mem_or_eq n hn with hn | rfl | rfl
      · rcases h.mem_or_eq n hn with hn | rfl | rfl
        · exact .inl hn
        · exact .inr (by simp)
        · exact .inr (by simp)
      · exact .inr (by simp)
      · exact .inr (by simp)
    label?_eq := fun n hn => (h'.label?_eq (h.grows.mem_ids n hn)).trans (h.label?_eq hn)
    parent?_eq := fun n hn => (h'.parent?_eq (h.grows.mem_ids n hn)).trans (h.parent?_eq hn)
    children_old := fun n hn hnT => ((h.unchanged n hn hnT).trans
      (h'.unchanged n (h.grows.mem_ids n hn) hnT)).children_eq
    label?_first := (h'.label?_eq hfirst).trans h.label?_first
    label?_first' := h'.label?_first
    label?_last' := h'.label?_last
    label?_last := (h'.label?_eq hlast).trans h.label?_last
    children_first' := h'.children_first
    children_last' := h'.children_last
    children_last := (h'.unchanged last hlast hne).children_eq.trans h.children_last }

namespace Frames

variable (h : Frames d d' T l mid r first first' last' last)
include h

theorem isBelow (wf : d.WellFormed) (hm : d.IsBelow m n) : d'.IsBelow m n :=
  hm.congr fun c hc => h.parent?_eq c (wf.mem_ids_of_parent? hc)

theorem isNamed_eq (hn : n ∈ d.ids) (name : String) : d'.isNamed n name = d.isNamed n name := by
  rw [isNamed, isNamed, name?, name?, h.label?_eq n hn]

theorem mem_children (hT : d.children T = l ++ (mid ++ r)) (hn : n ∈ d.children T) : n ∈ d'.children T := by
  rw [hT] at hn
  rw [h.children_eq]
  simp only [List.mem_append, List.mem_cons] at hn ⊢
  tauto

theorem bound_mem (hn : n ∈ [first, first', last', last]) : n ∈ d'.children T := by
  rw [h.children_eq]
  simp only [List.mem_cons, List.not_mem_nil, or_false] at hn
  simp only [List.mem_append, List.mem_cons]
  tauto

/-- The first bound of the block is its only anchor. -/
theorem eq_first {lbl : Label} (hnone : ∀ n, d.attribute? n Word.insertionAttribute = none)
    (hl : d'.label? n = some lbl) (hnot : ¬ IsNoAnchor lbl) : n = first := by
  rcases h.mem_or_eq n (h.grows.wellFormed.mem_ids_of_label? hl) with hn | hn
  · rw [h.label?_eq n hn] at hl
    refine absurd ?_ hnot
    have hsame : d.attribute? n Word.insertionAttribute = lbl.attribute? Word.insertionAttribute := by
      rw [attribute?, hl, Option.bind_some]
    rw [IsNoAnchor, ← hsame, hnone]
    exact (Option.some_ne_none _).symm
  · simp only [List.mem_cons, List.not_mem_nil, or_false] at hn
    rcases hn with rfl | rfl | rfl | rfl
    · rfl
    · cases h.label?_first'.symm.trans hl
      exact absurd (allowsBounds_isNoAnchor.first (.element ⟨Word.row, []⟩) .content 1 Nat.one_ne_zero) hnot
    · cases h.label?_last'.symm.trans hl
      exact absurd (allowsBounds_isNoAnchor.last _ _ _) hnot
    · cases h.label?_last.symm.trans hl
      exact absurd (allowsBounds_isNoAnchor.last _ _ _) hnot

/-- The blocks inside are placed, and their contents taken out, in the plots. -/
theorem stays {I : Forest Placed} (wf : d.WellFormed) (hnone : ∀ n, d.attribute? n Word.insertionAttribute = none)
    (hinner : ∀ x ∈ inner.toList, ∃ P, d.isNamed P Word.paragraph = true ∧ d.IsBelow P T ∧
      d.IsBelow x.start.node P ∧ d.IsBelow x.stop.node P)
    (hrun : placeAll (inner.number 2) d' = .ok I d'') :
    d''.WellFormed ∧ Stays d' (extractAll I d'').2 T ∧
      ∀ n lbl, (extractAll I d'').2.label? n = some lbl → ¬ IsNoAnchor lbl → n = first := by
  have wf' := h.grows.wellFormed
  have hplotted : Plotted IsNoAnchor (IsPlot d' T) (plotOf? d' T) d' := by
    refine plotted_plotOf? wf' fun n q lbl hn hl => ?_
    by_contra hnot
    obtain rfl := h.eq_first hnone hl hnot
    have habove := not_mem_ancestors wf' (.inl (rfl : T = T))
    rw [plotOf?_of_mem_children wf' (h.bound_mem (by simp)) (plotOf?_eq_none habove wf')
      (isCandidate_eq_false habove)] at hn
    cases hn
  have hstayIn : StayIn (plotOf? d' T) (inner.number 2) := by
    intro x hx
    have hnumber : x.1 ∈ List.range' 2 inner.size := by
      rw [← map_fst_toList_number]
      exact List.mem_map_of_mem hx
    have hblock : x.2 ∈ inner.toList := by
      rw [← map_snd_number 2 inner, toList_map]
      exact List.mem_map_of_mem hx
    obtain ⟨P, hP, hbelow, hstart, hstop⟩ := hinner _ hblock
    have hP' := (h.isNamed_eq (wf.mem_ids_of_isNamed hP) _).trans hP
    refine ⟨?_, _, plotOf?_of_isBelow wf' hP' (h.isBelow wf hbelow) (h.isBelow wf hstart),
      plotOf?_of_isBelow wf' hP' (h.isBelow wf hbelow) (h.isBelow wf hstop)⟩
    have := List.mem_range'_1.mp hnumber
    omega
  obtain ⟨o₁, hplotted₁, hin₁, hfirsts⟩ := placeAll_plots hplotted allowsBounds_isNoAnchor hstayIn hrun
  obtain ⟨o₂, hplotted₂, hin₂⟩ := extractAll_plots hplotted₁ hfirsts
  have hin := hin₁.trans hin₂
  refine ⟨hin₁.grows.wellFormed, stays_of_inPlots wf' hin, fun n lbl hl hnot => ?_⟩
  cases ho : o₂ n with
  | some q => exact absurd (hplotted₂.labels n q lbl ho hl) hnot
  | none =>
    have hn : n ∈ d'.ids := by
      by_contra hn
      exact hin.owner_ne n (hin.grows.wellFormed.mem_ids_of_label? hl) hn ho
    rw [hin.label?_eq n hn ((hin.owner_eq n hn).symm.trans ho)] at hl
    exact h.eq_first hnone hl hnot

end Frames

/-! ## Taking the contents out -/

/-- What is left of a table with the children `l`, `mid` and `r` when `mid` was taken out with the section of the
block around it: the bounds `first` and `last` of the block. -/
structure Emptied (d d' : Document) (T : NodeId) (l r : List NodeId) (first last : NodeId) : Prop where
  grows : d.Grows d'
  children_eq : d'.children T = l ++ first :: last :: r
  first_not_mem : first ∉ d.ids
  label?_first : d'.label? first = some (anchorLabel Word.row .collectionStart 0)
  label?_last : d'.label? last = some (endLabel .collectionStart 0)
  children_last : d'.children last = []
  above : ∀ n ∈ d.ids, n = T ∨ d.IsBelow T n → d'.label? n = d.label? n ∧ d'.parent? n = d.parent? n
  label?_eq : ∀ n ∈ d.children T, d'.label? n = d.label? n
  row : ∀ n ∈ d.children T, d.isNamed n Word.row = true → d'.children n = d.children n
  cell : ∀ n ∈ d.children T, d.isNamed n Word.row = true → ∀ c ∈ d.children n, d'.label? c = d.label? c
  eq_first : ∀ n lbl, d'.label? n = some lbl → ¬ IsNoAnchor lbl → n = first

/-- The rows are taken out with the section, and then the bounds of the section with the block. -/
theorem Frames.emptied (h : Frames d d' T l mid r first first' last' last) (wf : d.WellFormed) (hT : T ∈ d.ids)
    (hchildren : d.children T = l ++ (mid ++ r)) (hs : Stays d' d'' T)
    (hsole : ∀ n lbl, d''.label? n = some lbl → ¬ IsNoAnchor lbl → n = first) :
    d''.between first' last' = mid ∧ (d''.detachAll mid).between first last = [first', last'] ∧
      Emptied d ((d''.detachAll mid).detachAll [first', last']) T l r first last ∧
      ∀ n ∈ [first', last'], ((d''.detachAll mid).detachAll [first', last']).label? n = d'.label? n ∧
        ((d''.detachAll mid).detachAll [first', last']).children n = [] := by
  have wf' := h.grows.wellFormed
  have wf'' := hs.grows.wellFormed
  have hmid := wf''.moves_detachAll mid
  have wfE := hmid.grows.wellFormed
  have hmoves := hmid.trans (wfE.moves_detachAll [first', last'])
  have hchildren' := (hs.above T (h.grows.mem_ids T hT) (.inl rfl)).children_eq.trans h.children_eq
  have hchildrenE : (d''.detachAll mid).children T = l ++ first :: ([first', last'] ++ last :: r) :=
    (wf''.children_detachAll_of_eq (l := l ++ [first, first']) (r := last' :: last :: r)
      (by rw [hchildren']; simp)).trans (by simp)
  have hchildrenF : ((d''.detachAll mid).detachAll [first', last']).children T = l ++ first :: last :: r :=
    (wfE.children_detachAll_of_eq (l := l ++ [first]) (r := last :: r) (by rw [hchildrenE]; simp)).trans (by simp)
  -- No child of the table is the table or above it.
  have hnot : ∀ n, n = T ∨ d'.IsBelow T n → n ∉ d'.children T := fun n hn hmem =>
    not_mem_ancestors wf' hn (wf'.mem_ancestors_iff_isBelow.mpr (.single (wf'.parent?_eq_some_iff.mpr hmem)))
  have hne : ∀ n ∈ d'.children T, n ≠ T := fun n hn he => hnot n (.inl he) hn
  have hlabel : ∀ n ∈ d'.children T, ((d''.detachAll mid).detachAll [first', last']).label? n = d'.label? n :=
    fun n hn => (hmoves.label?_eq n).trans (hs.label?_eq n hn)
  have hrow : ∀ n ∈ d'.children T, d'.isNamed n Word.row = true →
      ((d''.detachAll mid).detachAll [first', last']).children n = d'.children n := fun n hn hname =>
    (wfE.children_detachAll_of_ne (p := T)
      (fun x hx => hchildrenE ▸ List.mem_append_right _ (List.mem_cons_of_mem _ (List.mem_append_left _ hx)))
      (hne n hn)).trans <|
      (wf''.children_detachAll_of_ne (p := T) (fun x hx => by rw [hchildren']; simp [hx]) (hne n hn)).trans
        (hs.row n hn hname).children_eq
  have hisRow : ∀ {n} {value : String}, d'.label? n =
      some ((Label.element ⟨Word.row, []⟩).setAttribute Word.insertionAttribute value) →
      d'.isNamed n Word.row = true := fun {n value} hl => by
    rw [isNamed, name?, hl]
    rfl
  have hold := fun n => h.mem_children hchildren (n := n)
  have hname : ∀ n ∈ d.children T, d.isNamed n Word.row = true → d'.isNamed n Word.row = true := fun n hn hname =>
    (h.isNamed_eq (wf.mem_ids_of_mem_children hn) _).trans hname
  refine ⟨wf''.between_of_children (l := l ++ [first]) (r := last :: r) (p := T) (by rw [hchildren']; simp),
    wfE.between_of_children hchildrenE, ⟨h.grows.trans (hs.grows.trans hmoves.grows), hchildrenF, h.first_not_mem,
    (hlabel first (h.bound_mem (by simp))).trans h.label?_first,
    (hlabel last (h.bound_mem (by simp))).trans h.label?_last,
    (hrow last (h.bound_mem (by simp)) (hisRow h.label?_last)).trans h.children_last, fun n hn habove => ?_,
    fun n hn => (hlabel n (hold n hn)).trans (h.label?_eq n (wf.mem_ids_of_mem_children hn)), fun n hn hnamed => ?_,
    fun n hn hnamed c hc => ?_, fun n lbl hl => hsole n lbl ((hmoves.label?_eq n).symm.trans hl)⟩, fun n hn => ?_⟩
  · replace habove := habove.imp id (h.isBelow wf)
    have hsame := hs.above n (h.grows.mem_ids n hn) habove
    refine ⟨(hmoves.label?_eq n).trans (hsame.label?_eq.trans (h.label?_eq n hn)), ?_⟩
    have hout := hnot n habove
    rw [h.children_eq] at hout
    simp only [List.mem_append, List.mem_cons, not_or] at hout
    rw [wfE.parent?_detachAll_of_not_mem (by simp [hout]), wf''.parent?_detachAll_of_not_mem (by simp [hout]),
      hsame.parent?_eq, h.parent?_eq n hn]
  · exact (hrow n (hold n hn) (hname n hn hnamed)).trans
      (h.children_old n (wf.mem_ids_of_mem_children hn) (hne n (hold n hn)))
  · refine (hmoves.label?_eq c).trans ((hs.cell n (hold n hn) (hname n hn hnamed) c ?_).trans
      (h.label?_eq c (wf.mem_ids_of_mem_children hc)))
    rwa [h.children_old n (wf.mem_ids_of_mem_children hn) (hne n (hold n hn))]
  · simp only [List.mem_cons, List.not_mem_nil, or_false] at hn
    rcases hn with rfl | rfl
    · exact ⟨hlabel n (h.bound_mem (by simp)), (hrow n (h.bound_mem (by simp)) (hisRow h.label?_first')).trans
        h.children_first'⟩
    · exact ⟨hlabel n (h.bound_mem (by simp)), (hrow n (h.bound_mem (by simp)) (hisRow h.label?_last')).trans
        h.children_last'⟩

/-- A block with one section around the children `mid` of a table, the first and the last of them rows, with
blocks inside that each start and stop in one paragraph of the table: its contents when all of them are placed
and taken out, and what is left. -/
theorem exists_emptied {P : Forest Placed} (wf : d.WellFormed)
    (hT : d.isNamed T Word.table = true) (hchildren : d.children T = l ++ (mid ++ r)) (ha : mid.head? = some a)
    (hb : mid.getLast? = some b) (hrow : d.isNamed a Word.row = true) (hrow' : d.isNamed b Word.row = true)
    (hspans : Spans d o.node c.node a b) (hnone : ∀ n, d.attribute? n Word.insertionAttribute = none)
    (hinner : ∀ x ∈ inner.toList, ∃ P, d.isNamed P Word.paragraph = true ∧ d.IsBelow P T ∧
      d.IsBelow x.start.node P ∧ d.IsBelow x.stop.node P)
    (hrun : placeAll ((tree ⟨.collectionStart, o, c⟩ (tree ⟨.content, o, c⟩ inner)).number 0) d = .ok P d') :
    Detached (extractAll P d').2 (extractAll P d').1 ∧ ∃ first last first' last' inner',
      (extractAll P d').1 =
        tree ⟨0, ⟨.collectionStart, o, c⟩, [first', last']⟩ (tree ⟨1, ⟨.content, o, c⟩, mid⟩ inner') ∧
      Emptied d (extractAll P d').2 T l r first last ∧
      (extractAll P d').2.label? first' = some (anchorLabel Word.row .content 1) ∧
      (extractAll P d').2.label? last' = some (endLabel .content 1) ∧
      (extractAll P d').2.children first' = [] ∧ (extractAll P d').2.children last' = [] := by
  obtain ⟨⟨_, _, first, last⟩, d₁, I, _, R, h₁, h₂, h₃, rfl⟩ := exists_of_placeAll_cons hrun
  cases h₃
  obtain ⟨⟨_, _, first', last'⟩, d₂, I, _, R, h₃, h₄, h₅, rfl⟩ := exists_of_placeAll_cons h₂
  cases h₅
  have haT : a ∈ d.children T := by
    rw [hchildren]
    exact List.mem_append_right _ (List.mem_append_left _ (List.mem_of_mem_head? ha))
  have hbT : b ∈ d.children T := by
    rw [hchildren]
    exact List.mem_append_right _ (List.mem_append_left _ (List.mem_of_getLast? hb))
  have hTmem := wf.mem_ids_of_isNamed hT
  -- The block finds the rows, and its section finds the same rows in between.
  obtain ⟨hA, rfl, rfl⟩ := placeOne_rows wf hT hchildren ha hb hrow hrow' hspans h₁
  obtain ⟨hB, rfl, rfl⟩ := placeOne_rows (l := l ++ [first]) (r := last :: r) hA.grows.wellFormed
    ((hA.isNamed_eq hTmem _).trans hT) (by rw [hA.children_eq]; simp) ha hb
    ((hA.isNamed_eq (wf.mem_ids_of_mem_children haT) _).trans hrow)
    ((hA.isNamed_eq (wf.mem_ids_of_mem_children hbT) _).trans hrow') (hA.spans wf haT hspans) h₃
  have hframes := hA.frames hB hTmem
  obtain ⟨wf', hstays, hsole⟩ := hframes.stays wf hnone hinner h₄
  obtain ⟨hsection, hblock, hemptied, hbounds⟩ := hframes.emptied wf hTmem hchildren hstays hsole
  have hextract : extractAll (cons ⟨0, ⟨.collectionStart, o, c⟩, first, last⟩
      (cons ⟨1, ⟨.content, o, c⟩, first', last'⟩ I nil) nil) d' =
        (tree ⟨0, ⟨.collectionStart, o, c⟩, [first', last']⟩ (tree ⟨1, ⟨.content, o, c⟩, mid⟩ (extractAll I d').1),
          ((extractAll I d').2.detachAll mid).detachAll [first', last']) := by
    simp only [hsection, extractAll, hblock]
    rfl
  obtain ⟨hlabel, hempty⟩ := hbounds first' (by simp)
  obtain ⟨hlabel', hempty'⟩ := hbounds last' (by simp)
  refine ⟨detached_extractAll wf' _, first, last, first', last', (extractAll I d').1, congrArg Prod.fst hextract, ?_⟩
  rw [hextract]
  exact ⟨hemptied, hlabel.trans hframes.label?_first', hlabel'.trans hframes.label?_last', hempty, hempty'⟩

end Frames

end Block

end WordTemplate
