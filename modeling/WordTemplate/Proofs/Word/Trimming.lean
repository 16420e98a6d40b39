import Mathlib.Data.List.Induction
import Mathlib.Data.List.TakeWhile
import WordTemplate.Preparation
import WordTemplate.Proofs.Word.Detachment
import WordTemplate.Proofs.Xml.Removal

/-!
# Trimming line breaks

Trimming at a text takes out the breaks that come before any other text on the ways from it through the items
of its paragraph. At several texts this is done one after the other, each time in a document that has lost
breaks and runs already. What counts is that a text in a run is never lost that way (`PlainRuns`): so the ways
end where they ended at first, and where a break has gone with something around it, the breaks in there were
all beside the same text.

* `Meets.of_part`, `meets_filter_iff`: ways through parts of a list, and through what is left of a list.
* `TakesOut.detachFromRun`: one more break, with its run if nothing else is in it.
* `TakesOut.beside_iff`, `Beside.of_mem_treeAt`: what is beside a text when other nodes are out.
* `WellFormed.foldl_trimLineBreaks`: all that is taken out, for every order of the texts.
* `order_counts_with_text_in_break`: a text in a break may be lost.
-/

namespace WordTemplate

open Xml Forest

/-! ## The way to the next text -/

/-- Whether, on the way through `items` behind `m`, one comes to `b` before any text. -/
def Meets (text : NodeId → Bool) (items : List NodeId) (m b : NodeId) : Prop :=
  ∃ l r, items = l ++ m :: r ∧ b ∈ r.takeWhile (!text ·)

section Meets

variable {text keep : NodeId → Bool} {items u part v : List NodeId} {m b c : NodeId}

theorem takeWhile_filter (htext : ∀ x ∈ items, text x = true → keep x = true) :
    (items.filter keep).takeWhile (!text ·) = (items.takeWhile (!text ·)).filter keep := by
  induction items with
  | nil => rfl
  | cons x items ih =>
    obtain ⟨hx, hitems⟩ := List.forall_mem_cons.mp htext
    cases hkeep : keep x with
    | true =>
      cases hxt : text x <;> simp [hkeep, hxt, ih hitems]
    | false =>
      have hxt : text x = false := by
        by_contra h
        simp [hx (by simpa using h)] at hkeep
      simp [hkeep, hxt, ih hitems]

/-- Leaving out what is no text changes nothing on the way to what stays. -/
theorem meets_filter_iff (hm : keep m = true) (htext : ∀ x ∈ items, text x = true → keep x = true) :
    Meets text (items.filter keep) m b ↔ Meets text items m b ∧ keep b = true := by
  constructor
  · rintro ⟨l, r, heq, hb⟩
    obtain ⟨l', s, rfl, -, hs⟩ := List.filter_eq_append_iff.mp heq
    obtain ⟨between, r', rfl, -, -, rfl⟩ := List.filter_eq_cons_iff.mp hs
    rw [takeWhile_filter fun x hx => htext x (by simp [hx]), List.mem_filter] at hb
    exact ⟨⟨l' ++ between, r', by simp, hb.1⟩, hb.2⟩
  · rintro ⟨⟨l, r, rfl, hb⟩, hkeep⟩
    refine ⟨l.filter keep, r.filter keep, by simp [hm], ?_⟩
    rw [takeWhile_filter fun x hx => htext x (by simp [hx]), List.mem_filter]
    exact ⟨hb, hkeep⟩

/-- What is behind an item is determined if nothing is there twice. -/
theorem eq_of_append_cons {l r l' r' : List NodeId} (h : l ++ m :: r = l' ++ m :: r') (hnodup : (l ++ m :: r).Nodup) :
    r = r' := by
  have hm := (List.nodup_cons.mp (List.nodup_middle.mp hnodup)).1
  rw [List.mem_append, not_or] at hm
  exact ((List.append_cons_inj_of_notMem hm.1 hm.2).mp h).2.2

theorem Meets.mem (h : Meets text items m b) : m ∈ items := by
  obtain ⟨l, r, rfl, -⟩ := h
  simp

theorem Meets.mem_right (h : Meets text items m b) : b ∈ items := by
  obtain ⟨l, r, rfl, hb⟩ := h
  simp [(List.takeWhile_sublist _).mem hb]

theorem meets_append_cons_iff {l r : List NodeId} (hnodup : (l ++ m :: r).Nodup) :
    Meets text (l ++ m :: r) m b ↔ b ∈ r.takeWhile (!text ·) := by
  constructor
  · rintro ⟨l', r', heq, hb⟩
    rwa [eq_of_append_cons heq hnodup]
  · exact fun hb => ⟨l, r, rfl, hb⟩

/-- If one comes to something in a part without texts, one comes to all that is in it. -/
theorem Meets.of_part (h : Meets text (u ++ (part ++ v)) m c) (hnodup : (u ++ (part ++ v)).Nodup) (hc : c ∈ part)
    (hm : m ∉ part) (hpart : ∀ x ∈ part, text x = false) (hb : b ∈ part) :
    Meets text (u ++ (part ++ v)) m b := by
  obtain ⟨l, r, heq, hcr⟩ := h
  have hmem : m ∈ u ++ (part ++ v) := by simp [heq]
  simp only [List.mem_append, hm, false_or] at hmem
  rcases hmem with hmem | hmem
  · -- The part is behind `m`, and there is no text in front of it.
    obtain ⟨u₁, u₂, rfl⟩ := List.append_of_mem hmem
    rw [List.append_assoc, List.cons_append] at heq hnodup ⊢
    obtain rfl := eq_of_append_cons heq hnodup
    refine ⟨u₁, _, rfl, ?_⟩
    rw [List.takeWhile_append] at hcr ⊢
    split at hcr
    · next hall =>
      rw [if_pos hall, List.takeWhile_append_of_pos fun x hx => by simp [hpart x hx]]
      simp [hb]
    · have hcu := (List.takeWhile_sublist _).mem hcr
      have hdisjoint := (List.nodup_append.mp (List.nodup_cons.mp (List.nodup_append.mp hnodup).2.1).2).2.2
      exact absurd rfl (hdisjoint c hcu c (by simp [hc]))
  · -- The part would have to be behind `m`.
    obtain ⟨v₁, v₂, rfl⟩ := List.append_of_mem hmem
    rw [show u ++ (part ++ (v₁ ++ m :: v₂)) = (u ++ part ++ v₁) ++ m :: v₂ by simp] at heq hnodup
    obtain rfl := eq_of_append_cons heq hnodup
    have hcv := (List.takeWhile_sublist _).mem hcr
    exact absurd rfl ((List.nodup_append.mp hnodup).2.2 c (by simp [hc]) c (by simp [hcv]))

end Meets

namespace Xml.Document

variable {d d' : Document} {breaks : List NodeId} {m n b c p t x : NodeId}

/-! ## Items of runs -/

theorem WellFormed.mem_descendants_of_ancestorNamed? (wf : d.WellFormed) {name : String}
    (h : d.ancestorNamed? n name = some p) : n ∈ d.descendants p := by
  have habove := List.mem_of_find?_eq_some h
  refine wf.mem_descendants_iff.mpr ⟨wf.mem_treeAt_of_isAncestor (List.contains_iff_mem.mpr habove), ?_⟩
  rintro rfl
  exact (List.nodup_cons.mp (wf.nodup_ancestors n)).1 habove

/-- Whether a node is a child of a run. -/
def inRun (d : Document) (n : NodeId) : Bool :=
  (d.parent? n).any (d.isNamed · Word.run)

/-- Whether a node is a text that is a child of a run. -/
def isRunText (d : Document) (n : NodeId) : Bool :=
  d.isNamed n Word.text && d.inRun n

/-- Whether `b` is a line break that comes before any text on one of the ways from `m` through the items of its
paragraph. -/
def Beside (d : Document) (m b : NodeId) : Prop :=
  d.isNamed b Word.lineBreak = true ∧ ∃ p, d.ancestorNamed? m Word.paragraph = some p ∧
    (Meets (d.isNamed · Word.text) (d.runItems p) m b ∨ Meets (d.isNamed · Word.text) (d.runItems p).reverse m b)

theorem mem_runItems : n ∈ d.runItems p ↔ n ∈ d.descendants p ∧ d.inRun n = true ∧ d.isProperty n = false := by
  simp [runItems, inRun]

theorem WellFormed.nodup_runItems (wf : d.WellFormed) (p : NodeId) : (d.runItems p).Nodup :=
  wf.nodup_descendants.filter _

theorem mem_breaksBeforeText {items : List NodeId} :
    b ∈ d.breaksBeforeText items ↔
      d.isNamed b Word.lineBreak = true ∧ b ∈ items.takeWhile (!d.isNamed · Word.text) := by
  rw [breaksBeforeText, List.mem_filter, and_comm]

theorem beside_iff (hp : d.ancestorNamed? m Word.paragraph = some p) :
    d.Beside m b ↔ d.isNamed b Word.lineBreak = true ∧
      (Meets (d.isNamed · Word.text) (d.runItems p) m b ∨
        Meets (d.isNamed · Word.text) (d.runItems p).reverse m b) := by
  simp [Beside, hp]

theorem Beside.exists_mem_runItems (h : d.Beside m b) :
    ∃ p, d.ancestorNamed? m Word.paragraph = some p ∧ b ∈ d.runItems p := by
  obtain ⟨-, p, hp, h | h⟩ := h
  · exact ⟨p, hp, h.mem_right⟩
  · exact ⟨p, hp, List.mem_reverse.mp h.mem_right⟩

/-- Trimming takes out the breaks beside a node. -/
theorem WellFormed.exists_trimLineBreaks (wf : d.WellFormed) (m : NodeId) :
    ∃ breaks : List NodeId, (∀ b, b ∈ breaks ↔ d.Beside m b) ∧
      d.trimLineBreaks m = breaks.foldl detachFromRun d := by
  rw [trimLineBreaks]
  cases hp : d.ancestorNamed? m Word.paragraph with
  | none => exact ⟨[], fun b => by simp [Beside, hp], rfl⟩
  | some p =>
    have hnodup := wf.nodup_runItems p
    dsimp only
    cases hi : (d.runItems p).idxOf? m with
    | none =>
      have hm : m ∉ d.runItems p := List.idxOf?_eq_none_iff.mp hi
      refine ⟨[], fun b => iff_of_false List.not_mem_nil fun h => ?_, rfl⟩
      exact ((beside_iff hp).mp h).2.elim (fun h => hm h.mem) fun h => hm (List.mem_reverse.mp h.mem)
    | some i =>
      obtain ⟨hlt, hat, -⟩ := List.idxOf?_eq_some_iff.mp hi
      have hitems : d.runItems p = (d.runItems p).take i ++ m :: (d.runItems p).drop (i + 1) := by
        rw [← hat, List.getElem_cons_drop, List.take_append_drop]
      refine ⟨_, fun b => ?_, rfl⟩
      rw [beside_iff hp, List.mem_append, mem_breaksBeforeText, mem_breaksBeforeText, ← and_or_left]
      generalize (d.runItems p).take i = before at *
      generalize (d.runItems p).drop (i + 1) = after at *
      rw [hitems] at hnodup ⊢
      have hreverse : (before ++ m :: after).reverse = after.reverse ++ m :: before.reverse := by simp
      rw [meets_append_cons_iff hnodup, hreverse, meets_append_cons_iff]
      rwa [← hreverse, List.nodup_reverse]

/-! ## Runs that are left without content -/

/-- Whether `n` counts as content of its parent. -/
def isContent (d : Document) (n : NodeId) : Bool :=
  (d.label? n).any Label.isContent

/-- Whether `n` is a run that loses children when `breaks` go, and has no other content. -/
def leftEmpty (d : Document) (breaks : List NodeId) (n : NodeId) : Bool :=
  d.isNamed n Word.run && (d.children n).any breaks.contains &&
    (d.children n).all fun c => breaks.contains c || !d.isContent c

/-- Whether `n` goes with `breaks`: it is one of them, or a run that they leave without content. -/
def goesWith (d : Document) (breaks : List NodeId) (n : NodeId) : Bool :=
  breaks.contains n || d.leftEmpty breaks n

theorem leftEmpty_iff :
    d.leftEmpty breaks n = true ↔ d.isNamed n Word.run = true ∧ (∃ c ∈ d.children n, c ∈ breaks) ∧
      ∀ c ∈ d.children n, d.isContent c = true → c ∈ breaks := by
  simp only [leftEmpty, Bool.and_eq_true, List.any_eq_true, List.all_eq_true, List.contains_iff_mem, Bool.or_eq_true,
    Bool.not_eq_true', and_assoc]
  refine and_congr_right fun _ => and_congr_right fun _ => forall₂_congr fun c _ => ?_
  cases d.isContent c <;> simp

theorem goesWith_iff : d.goesWith breaks n = true ↔ n ∈ breaks ∨ d.leftEmpty breaks n = true := by
  simp [goesWith]

/-- Only which breaks they are counts. -/
theorem goesWith_congr {breaks' : List NodeId} (h : ∀ b, b ∈ breaks' ↔ b ∈ breaks) (n : NodeId) :
    d.goesWith breaks' n = d.goesWith breaks n := by
  rw [Bool.eq_iff_iff, goesWith_iff, goesWith_iff, leftEmpty_iff, leftEmpty_iff]
  simp only [h]

theorem eq_of_isNamed {name name' : String} (h : d.isNamed n name = true) (h' : d.isNamed n name' = true) :
    name = name' := by
  simp only [isNamed, beq_iff_eq] at h h'
  exact Option.some.inj (h.symm.trans h')

theorem isProperty_of_isNamed {name : String} (h : d.isNamed n name = true) :
    d.isProperty n = Xml.isProperty name := by
  obtain ⟨l, hl, hname⟩ := isNamed_iff.mp h
  rw [isProperty, hl]
  cases l with
  | text content => cases hname
  | element tag =>
    obtain rfl : tag.name = name := by simpa [Label.isNamed, Label.name?] using hname
    rfl

/-- An element counts as content unless it carries formatting, and a text if it is not empty. -/
theorem WellFormed.isContent_eq (wf : d.WellFormed) (hn : n ∈ d.ids) :
    d.isContent n = (!d.isProperty n && d.text? n != some "") := by
  obtain ⟨node, cs, rfl, ht⟩ := wf.exists_treeAt hn
  rw [isContent, isProperty, text?, label?, ht]
  obtain ⟨id, label⟩ := node
  cases label with
  | element tag => simp [roots, tree, Label.isContent, Label.isProperty, Label.text?]
  | text content => simp [roots, tree, Label.isContent, Label.isProperty, Label.text?, bne, String.isEmpty]

theorem WellFormed.hasContent_eq (wf : d.WellFormed) (n : NodeId) :
    d.hasContent n = (d.children n).any d.isContent := by
  rw [hasContent, children, List.any_map, Bool.eq_iff_iff, List.any_eq_true, List.any_eq_true]
  refine exists_congr fun node => and_congr_right fun hnode => ?_
  have hbelow : node ∈ d.nodesBelow n := by
    obtain ⟨l, as, r, heq⟩ := exists_of_mem_roots hnode
    simp [nodesBelow, heq, toList]
  rw [Function.comp_apply, isContent, wf.label?_of_mem_nodesBelow hbelow]
  rfl

/-! ## Documents with plain runs -/

/-- Whether runs hold no runs and are not part of formatting, and texts in runs are not below breaks or empty
pieces of text in runs. -/
structure PlainRuns (d : Document) : Prop where
  run : ∀ r ∈ d.ids, d.isNamed r Word.run = true → d.inRun r = false
  property : ∀ r ∈ d.ids, d.isNamed r Word.run = true → ∀ q ∈ d.ancestors r, d.isProperty q = false
  text : ∀ t ∈ d.ids, d.isRunText t = true → ∀ x ∈ d.ancestors t, d.inRun x = true →
    d.isNamed x Word.lineBreak = false ∧ d.text? x ≠ some ""

instance (d : Document) : Decidable d.PlainRuns :=
  decidable_of_iff
    ((∀ r ∈ d.ids, d.isNamed r Word.run = true → d.inRun r = false) ∧
      (∀ r ∈ d.ids, d.isNamed r Word.run = true → ∀ q ∈ d.ancestors r, d.isProperty q = false) ∧
      ∀ t ∈ d.ids, d.isRunText t = true → ∀ x ∈ d.ancestors t, d.inRun x = true →
        d.isNamed x Word.lineBreak = false ∧ d.text? x ≠ some "")
    ⟨fun h => ⟨h.1, h.2.1, h.2.2⟩, fun h => ⟨h.run, h.property, h.text⟩⟩

theorem inRun_iff : d.inRun n = true ↔ ∃ r, d.parent? n = some r ∧ d.isNamed r Word.run = true := by
  simp [inRun, Option.any_eq_true]

theorem WellFormed.isContent_of_isNamed (wf : d.WellFormed) {name : String} (h : d.isNamed n name = true)
    (hname : Xml.isProperty name = false) : d.isContent n = true := by
  obtain ⟨l, hl, hl'⟩ := isNamed_iff.mp h
  have htext : d.text? n = none := by
    rw [text?, hl]
    cases l with
    | text content => cases hl'
    | element tag => rfl
  rw [wf.isContent_eq (wf.mem_ids_of_isNamed h), isProperty_of_isNamed h, hname, htext]
  rfl

namespace PlainRuns

variable (hd : d.PlainRuns) (wf : d.WellFormed)
include hd wf

/-- What is above a text in a run, and in a run itself, counts as content and is no break. -/
theorem of_mem_ancestors (ht : d.isRunText t = true) (hx : x ∈ d.ancestors t) (hin : d.inRun x = true) :
    d.isContent x = true ∧ d.isNamed x Word.lineBreak = false := by
  obtain ⟨hname, htin⟩ := Bool.and_eq_true_iff.mp ht
  have hbelow := wf.mem_treeAt_of_isAncestor (by rwa [isAncestor, List.contains_iff_mem])
  have hxmem := wf.mem_ids_of_below hbelow
  obtain ⟨hbreak, htext⟩ := hd.text t (wf.mem_ids_of_isNamed hname) ht x hx hin
  refine ⟨?_, hbreak⟩
  rw [wf.isContent_eq hxmem, Bool.and_eq_true, Bool.not_eq_true', bne_iff_ne]
  refine ⟨?_, htext⟩
  -- The run of the text is no formatting, and is in none.
  obtain ⟨r, hr, hrun⟩ := inRun_iff.mp htin
  rw [wf.ancestors_of_parent? hr, List.mem_cons] at hx
  rcases hx with rfl | hx
  · rw [isProperty_of_isNamed hrun]
    decide
  · exact hd.property r (wf.mem_ids_of_isNamed hrun) hrun x hx

/-- Nothing that has a text in a run below goes with breaks. -/
theorem goesWith_eq_false (hbreaks : ∀ b ∈ breaks, d.isNamed b Word.lineBreak = true ∧ d.inRun b = true)
    (ht : d.isRunText t = true) (hx : t ∈ Xml.ids (d.treeAt x)) : d.goesWith breaks x = false := by
  have hname := (Bool.and_eq_true_iff.mp ht).1
  have habove : ∀ y, t ∈ Xml.ids (d.treeAt y) → d.inRun y = true → y ∉ breaks ∧ d.isContent y = true := by
    intro y hy hin
    by_cases hty : t = y
    · subst hty
      refine ⟨fun hmem => ?_, wf.isContent_of_isNamed hname (by decide)⟩
      exact absurd (eq_of_isNamed hname (hbreaks t hmem).1) (by decide)
    · have hmem := wf.isAncestor_of_mem hy hty
      rw [isAncestor, List.contains_iff_mem] at hmem
      obtain ⟨hcontent, hbreak⟩ := hd.of_mem_ancestors wf ht hmem hin
      refine ⟨fun hmem => ?_, hcontent⟩
      rw [(hbreaks y hmem).1] at hbreak
      cases hbreak
  rw [← Bool.not_eq_true, goesWith_iff, leftEmpty_iff]
  rintro (hmem | ⟨hrun, -, hall⟩)
  · exact (habove x hx (hbreaks x hmem).2).1 hmem
  · have hne : t ≠ x := by
      rintro rfl
      exact absurd (eq_of_isNamed hname hrun) (by decide)
    obtain ⟨c, hc, htc⟩ := wf.exists_child hx hne
    obtain ⟨hnot, hcontent⟩ := habove c htc (inRun_iff.mpr ⟨x, wf.parent?_eq_some_iff.mpr hc, hrun⟩)
    exact hnot (hall c hc hcontent)

end PlainRuns

/-! ## Taking out breaks -/

/-- A break that is no child of a node makes no difference to it. -/
theorem leftEmpty_cons_of_not_mem (hb : b ∉ d.children n) : d.leftEmpty (b :: breaks) n = d.leftEmpty breaks n := by
  have hmem : ∀ c ∈ d.children n, (c ∈ b :: breaks ↔ c ∈ breaks) := fun c hc => by
    have hne : c ≠ b := fun he => hb (he ▸ hc)
    simp [hne]
  rw [Bool.eq_iff_iff, leftEmpty_iff, leftEmpty_iff]
  refine and_congr_right fun _ => and_congr (exists_congr fun c => and_congr_right (hmem c)) ?_
  exact forall₂_congr fun c hc => imp_congr_right fun _ => hmem c hc

theorem leftEmpty_mono {breaks' : List NodeId} (hsub : breaks ⊆ breaks') (h : d.leftEmpty breaks n = true) :
    d.leftEmpty breaks' n = true := by
  obtain ⟨hrun, ⟨c, hc, hgone⟩, hall⟩ := leftEmpty_iff.mp h
  exact leftEmpty_iff.mpr ⟨hrun, ⟨c, hc, hsub hgone⟩, fun c hc hcontent => hsub (hall c hc hcontent)⟩

/-- One more break takes itself along, and its run if that is left empty. -/
theorem WellFormed.goesWith_cons {run : NodeId} (wf : d.WellFormed) (hp : d.parent? b = some run) (n : NodeId) :
    d.goesWith (b :: breaks) n =
      (d.goesWith breaks n || n == b || (n == run && d.leftEmpty (b :: breaks) run)) := by
  by_cases hn : n = run
  · subst hn
    rw [goesWith, goesWith, List.contains_cons]
    cases hleft : d.leftEmpty (b :: breaks) n with
    | true => simp
    | false =>
      have hbefore : d.leftEmpty breaks n = false := by
        rw [← Bool.not_eq_true] at hleft ⊢
        exact mt (leftEmpty_mono (List.subset_cons_self b breaks)) hleft
      simp [hbefore, Bool.or_comm]
  · have hnot : b ∉ d.children n := fun hmem => by
      rw [wf.parent?_eq_some_iff.mpr hmem] at hp
      exact hn (Option.some.inj hp)
    rw [goesWith, goesWith, leftEmpty_cons_of_not_mem hnot, List.contains_cons, beq_false_of_ne hn, Bool.false_and,
      Bool.or_false, Bool.or_comm (n == b), Bool.or_right_comm]

namespace TakesOut

theorem isNamed_eq {out : NodeId → Bool} (h : d.TakesOut d' out) (n : NodeId) (name : String) :
    d'.isNamed n name = d.isNamed n name := by
  rw [isNamed, isNamed, name?, name?, h.moves.label?_eq]

theorem isContent_eq {out : NodeId → Bool} (h : d.TakesOut d' out) (n : NodeId) : d'.isContent n = d.isContent n := by
  rw [isContent, isContent, h.moves.label?_eq]

/-- Without one more break, its run has content unless it is left empty. -/
theorem hasContent_eq_false_iff (hd : d.PlainRuns) (wf : d.WellFormed) {run : NodeId}
    (h : d.TakesOut d' fun n => d.goesWith breaks n || n == b) (hb : b ∈ d.children run)
    (hrun : d.isNamed run Word.run = true) :
    d'.hasContent run = false ↔ d.leftEmpty (b :: breaks) run = true := by
  -- No child of a run is a run, so what goes of the children are breaks.
  have hgoes : ∀ c ∈ d.children run, (d.goesWith breaks c || c == b) = true ↔ c ∈ b :: breaks := by
    intro c hc
    have hin := inRun_iff.mpr ⟨run, wf.parent?_eq_some_iff.mpr hc, hrun⟩
    have hleft : d.leftEmpty breaks c = false := by
      rw [← Bool.not_eq_true]
      intro hleft
      have hcrun := (leftEmpty_iff.mp hleft).1
      rw [hd.run c (wf.mem_ids_of_isNamed hcrun) hcrun] at hin
      cases hin
    rw [goesWith, hleft, List.mem_cons]
    simp [or_comm]
  rw [h.moves.grows.wellFormed.hasContent_eq, h.children_eq, List.any_eq_false, leftEmpty_iff]
  simp only [List.mem_filter, Bool.not_eq_true', ← Bool.not_eq_true, h.isContent_eq]
  constructor
  · intro hnone
    refine ⟨hrun, ⟨b, hb, List.mem_cons_self⟩, fun c hc hcontent => ?_⟩
    by_contra hnot
    exact hnone c ⟨hc, mt (hgoes c hc).mp hnot⟩ hcontent
  · rintro ⟨-, -, hall⟩ c ⟨hc, hstays⟩ hcontent
    exact hstays ((hgoes c hc).mpr (hall c hc hcontent))

/-- Taking out one more break, with its run if that is left empty. -/
theorem detachFromRun (hd : d.PlainRuns) (wf : d.WellFormed) (h : d.TakesOut d' (d.goesWith breaks))
    (hb : d.isNamed b Word.lineBreak = true) (hin : d.inRun b = true) :
    d.TakesOut (d'.detachFromRun b) (d.goesWith (b :: breaks)) := by
  obtain ⟨run, hp, hrun⟩ := inRun_iff.mp hin
  have hparent := h.parent?_eq wf b
  have hout := h.detach b
  rw [Document.detachFromRun]
  cases hgone : d.goesWith breaks b with
  | true =>
    -- It is out already.
    have hmem : b ∈ breaks := by
      refine (goesWith_iff.mp hgone).resolve_right fun hleft => ?_
      exact absurd (eq_of_isNamed hb (leftEmpty_iff.mp hleft).1) (by decide)
    rw [hparent, hgone, if_pos rfl]
    refine hout.congr fun n => ?_
    have hsame : d.goesWith (b :: breaks) n = d.goesWith breaks n := goesWith_congr (by simp [hmem]) n
    rw [hsame]
    by_cases hn : n = b
    · simp [hn, hgone]
    · simp [hn]
  | false =>
    rw [hparent, hgone, if_neg Bool.false_ne_true, hp]
    dsimp only
    have hcontent := hout.hasContent_eq_false_iff hd wf (wf.parent?_eq_some_iff.mp hp) hrun
    rw [hout.isNamed_eq, hrun, Bool.true_and]
    cases hleft : d.leftEmpty (b :: breaks) run with
    | true =>
      rw [hcontent.mpr hleft, Bool.not_false, if_pos rfl]
      exact (hout.detach run).congr fun n => by rw [wf.goesWith_cons hp, hleft, Bool.and_true]
    | false =>
      have hkept : (d'.detach b).hasContent run = true := by
        rwa [← Bool.not_eq_false, hcontent, Bool.not_eq_true]
      rw [hkept, Bool.not_true, if_neg Bool.false_ne_true]
      exact hout.congr fun n => by rw [wf.goesWith_cons hp, hleft, Bool.and_false, Bool.or_false]

/-- Taking out several breaks. -/
theorem foldl_detachFromRun (hd : d.PlainRuns) (wf : d.WellFormed) {more : List NodeId}
    (h : d.TakesOut d' (d.goesWith breaks))
    (hmore : ∀ b ∈ more, d.isNamed b Word.lineBreak = true ∧ d.inRun b = true) :
    d.TakesOut (more.foldl Document.detachFromRun d') (d.goesWith (more ++ breaks)) := by
  induction more generalizing d' breaks with
  | nil => exact h
  | cons b more ih =>
    obtain ⟨⟨hb, hin⟩, hothers⟩ := List.forall_mem_cons.mp hmore
    refine (ih (h.detachFromRun hd wf hb hin) hothers).congr (goesWith_congr fun c => ?_)
    simp only [List.mem_append, List.mem_cons]
    tauto

/-! ## What is beside a node after others were taken out -/

section Beside

variable {out : NodeId → Bool} (h : d.TakesOut d' out) (wf : d.WellFormed)
include h wf

theorem parent?_of_mem_descendants (hn : n ∈ d'.descendants p) : out n = false ∧ d'.parent? n = d.parent? n := by
  have wf' := h.moves.grows.wellFormed
  obtain ⟨hmem, hne⟩ := wf'.mem_descendants_iff.mp hn
  have hsome := wf'.parent?_isSome hmem hne
  rw [h.parent?_eq wf] at hsome ⊢
  cases hout : out n with
  | true => simp [hout] at hsome
  | false => exact ⟨rfl, if_neg Bool.false_ne_true⟩

theorem runItems_eq (p : NodeId) :
    d'.runItems p = (d.runItems p).filter (d'.descendants p).contains := by
  rw [runItems, h.descendants_eq wf, runItems, List.filter_filter, List.filter_filter]
  refine List.filter_congr fun n hmem => ?_
  by_cases hn : n ∈ d'.descendants p
  · have hproperty : d'.isProperty n = d.isProperty n := by rw [isProperty, isProperty, h.moves.label?_eq]
    rw [(h.parent?_of_mem_descendants wf hn).2, hproperty]
    simp [h.isNamed_eq, hn, hmem]
  · simp [hn]

/-- Where the texts in runs stay, the breaks beside them are those of before that are still there. -/
theorem beside_iff (htexts : ∀ t, d.isRunText t = true → ∀ x, t ∈ Xml.ids (d.treeAt x) → out x = false)
    (hm : d.isRunText m = true) :
    d'.Beside m b ↔ d.Beside m b ∧ ∃ p, d.ancestorNamed? m Word.paragraph = some p ∧ b ∈ d'.descendants p := by
  have hnamed : ∀ name, (d'.isNamed · name) = (d.isNamed · name) := fun name => funext fun n => h.isNamed_eq n name
  have hparagraph : d'.ancestorNamed? m Word.paragraph = d.ancestorNamed? m Word.paragraph := by
    rw [ancestorNamed?, ancestorNamed?, h.ancestors_eq wf (htexts m hm), hnamed]
  cases hp : d.ancestorNamed? m Word.paragraph with
  | none => simp [Beside, hparagraph, hp]
  | some p =>
    have hkeep : ∀ x ∈ d.runItems p, d.isNamed x Word.text = true → (d'.descendants p).contains x = true := by
      intro x hx hname
      obtain ⟨hmem, hin, -⟩ := mem_runItems.mp hx
      exact List.contains_iff_mem.mpr (h.mem_descendants wf hmem (htexts x (Bool.and_eq_true_iff.mpr ⟨hname, hin⟩)))
    have hmkeep : (d'.descendants p).contains m = true :=
      List.contains_iff_mem.mpr (h.mem_descendants wf (wf.mem_descendants_of_ancestorNamed? hp) (htexts m hm))
    rw [Document.beside_iff (hparagraph.trans hp), Document.beside_iff hp, h.runItems_eq wf, ← List.filter_reverse,
      hnamed, h.isNamed_eq, meets_filter_iff hmkeep hkeep, meets_filter_iff hmkeep (by simpa using hkeep)]
    simp only [List.contains_iff_mem, Option.some.injEq, exists_eq_left', ← or_and_right, and_assoc]

end Beside

end TakesOut

/-- The items in a tree below a paragraph stand together. -/
theorem WellFormed.exists_runItems_eq (wf : d.WellFormed) (hx : x ∈ d.descendants p) :
    ∃ u part v, d.runItems p = u ++ (part ++ v) ∧
      ∀ i, i ∈ part ↔ i ∈ Xml.ids (d.treeAt x) ∧ d.inRun i = true ∧ d.isProperty i = false := by
  obtain ⟨u, v, heq⟩ := wf.exists_descendants_eq hx
  refine ⟨_, _, _, by rw [runItems, heq, List.filter_append, List.filter_append], fun i => ?_⟩
  simp [inRun]

/-- If a break beside `m` is in a tree without texts of runs, all breaks of runs in the tree are beside `m`. -/
theorem Beside.of_mem_treeAt (h : d.Beside m c) (wf : d.WellFormed) (hm : d.isRunText m = true)
    (htree : ∀ t ∈ Xml.ids (d.treeAt x), d.isRunText t = false) (hc : c ∈ Xml.ids (d.treeAt x))
    (hbreak : d.isNamed b Word.lineBreak = true) (hin : d.inRun b = true) (hb : b ∈ Xml.ids (d.treeAt x)) :
    d.Beside m b := by
  obtain ⟨p, hp, hcitem⟩ := h.exists_mem_runItems
  have hmp := wf.mem_descendants_iff.mp (wf.mem_descendants_of_ancestorNamed? hp)
  have hmx : m ∉ Xml.ids (d.treeAt x) := fun hmx => by simp [htree m hmx] at hm
  -- The tree is below the paragraph, because `m` is in the paragraph and not in the tree.
  have hx : x ∈ d.descendants p := by
    have hcp := (wf.mem_descendants_iff.mp (mem_runItems.mp hcitem).1).1
    have hpx : p ∉ Xml.ids (d.treeAt x) := fun hpx => hmx (wf.mem_treeAt_trans hpx hmp.1)
    refine wf.mem_descendants_iff.mpr ⟨(wf.mem_treeAt_total hc hcp).resolve_right hpx, ?_⟩
    rintro rfl
    exact hpx (wf.mem_treeAt_self (wf.mem_ids_of_below hc))
  obtain ⟨u, part, v, heq, hpart⟩ := wf.exists_runItems_eq hx
  have hnodup := wf.nodup_runItems p
  have hbpart : b ∈ part := (hpart b).mpr ⟨hb, hin, by rw [isProperty_of_isNamed hbreak]; decide⟩
  have hcpart : c ∈ part := (hpart c).mpr ⟨hc, (mem_runItems.mp hcitem).2⟩
  have hmpart : m ∉ part := fun hmem => hmx ((hpart m).mp hmem).1
  have htext : ∀ i ∈ part, d.isNamed i Word.text = false := by
    intro i hi
    obtain ⟨hix, hiin, -⟩ := (hpart i).mp hi
    have hnot := htree i hix
    rwa [isRunText, hiin, Bool.and_true] at hnot
  obtain ⟨-, hway⟩ := (beside_iff hp).mp h
  refine (beside_iff hp).mpr ⟨hbreak, ?_⟩
  rw [heq] at hnodup hway ⊢
  refine hway.imp (fun hway => hway.of_part hnodup hcpart hmpart htext hbpart) fun hway => ?_
  have hreverse : (u ++ (part ++ v)).reverse = v.reverse ++ (part.reverse ++ u.reverse) := by simp
  rw [hreverse] at hway ⊢
  refine hway.of_part ?_ (by simpa) (by simpa) (by simpa using htext) (by simpa)
  rwa [← hreverse, List.nodup_reverse]

/-! ## Trimming at several places -/

/-- Whether `d'` is `d` without the breaks beside the nodes `ms`, and without the runs that they leave empty. -/
def Trimmed (d d' : Document) (ms : List NodeId) : Prop :=
  ∃ breaks : List NodeId, (∀ b, b ∈ breaks ↔ ∃ m ∈ ms, d.Beside m b) ∧ d.TakesOut d' (d.goesWith breaks)

/-- Only which nodes they are counts. -/
theorem Trimmed.congr {ms ms' : List NodeId} (h : d.Trimmed d' ms) (hms : ∀ m, m ∈ ms' ↔ m ∈ ms) :
    d.Trimmed d' ms' := by
  obtain ⟨breaks, hbreaks, hout⟩ := h
  exact ⟨breaks, fun b => by simp only [hbreaks, hms], hout⟩

theorem WellFormed.trimmed_nil (wf : d.WellFormed) : d.Trimmed d [] := by
  refine ⟨[], by simp, (TakesOut.refl wf).congr fun n => ?_⟩
  rw [← Bool.not_eq_true, goesWith_iff, leftEmpty_iff]
  simp

/-- The breaks that go are children of runs. -/
theorem break_of_beside {ms : List NodeId} (hbreaks : ∀ b, b ∈ breaks ↔ ∃ m ∈ ms, d.Beside m b) :
    ∀ b ∈ breaks, d.isNamed b Word.lineBreak = true ∧ d.inRun b = true := by
  intro b hb
  obtain ⟨m, -, hbeside⟩ := (hbreaks b).mp hb
  obtain ⟨p, -, hitem⟩ := hbeside.exists_mem_runItems
  exact ⟨hbeside.1, (mem_runItems.mp hitem).2.1⟩

section Trimmed

variable {ms : List NodeId} (hd : d.PlainRuns) (wf : d.WellFormed)
include hd wf

/-- A break beside a text that is not below its paragraph any more is among those that have gone. -/
theorem TakesOut.mem_of_beside (h : d.TakesOut d' (d.goesWith breaks))
    (hbreaks : ∀ b, b ∈ breaks ↔ ∃ m ∈ ms, d.Beside m b) (hms : ∀ m ∈ ms, d.isRunText m = true)
    (hb : d.Beside m b) (hp : d.ancestorNamed? m Word.paragraph = some p) (hnot : b ∉ d'.descendants p) :
    b ∈ breaks := by
  obtain ⟨p', hp', hitem⟩ := hb.exists_mem_runItems
  obtain rfl : p' = p := Option.some.inj (hp'.symm.trans hp)
  obtain ⟨hmem, hin, -⟩ := mem_runItems.mp hitem
  obtain ⟨hbelow, hne⟩ := wf.mem_descendants_iff.mp hmem
  obtain ⟨x, hx, hbx⟩ := (h.mem_treeAt wf hbelow).resolve_left fun hmem' =>
    hnot (h.moves.grows.wellFormed.mem_descendants_iff.mpr ⟨hmem', hne⟩)
  -- What was taken out around it is a break that has gone, or had one for a child.
  obtain ⟨c, hc, hcx⟩ : ∃ c ∈ breaks, c ∈ Xml.ids (d.treeAt x) := by
    rcases goesWith_iff.mp hx with hgone | hleft
    · exact ⟨x, hgone, wf.mem_treeAt_self (wf.mem_ids_of_below hbx)⟩
    · obtain ⟨-, ⟨c, hc, hgone⟩, -⟩ := leftEmpty_iff.mp hleft
      exact ⟨c, hgone, wf.mem_treeAt_of_mem_children hc⟩
  obtain ⟨m', hm', hbeside⟩ := (hbreaks c).mp hc
  refine (hbreaks b).mpr ⟨m', hm', hbeside.of_mem_treeAt wf (hms m' hm') (fun t ht => ?_) hcx hb.1 hin hbx⟩
  by_contra htext
  rw [hd.goesWith_eq_false wf (break_of_beside hbreaks) (by simpa using htext) ht] at hx
  cases hx

/-- Trimming at one more text. -/
theorem Trimmed.trimLineBreaks (h : d.Trimmed d' ms) (hms : ∀ m ∈ ms, d.isRunText m = true)
    (hm : d.isRunText m = true) : d.Trimmed (d'.trimLineBreaks m) (m :: ms) := by
  obtain ⟨breaks, hbreaks, hout⟩ := h
  obtain ⟨more, hmore, heq⟩ := hout.moves.grows.wellFormed.exists_trimLineBreaks m
  have hiff := fun b => hout.beside_iff wf (b := b)
    (fun t ht x hx => hd.goesWith_eq_false wf (break_of_beside hbreaks) ht hx) hm
  have hall : ∀ b, b ∈ more ++ breaks ↔ ∃ m' ∈ m :: ms, d.Beside m' b := by
    intro b
    rw [List.mem_append, hmore, hiff, List.exists_mem_cons_iff, ← hbreaks]
    refine ⟨fun hb => hb.imp_left And.left, fun hb => ?_⟩
    rcases hb with hb | hb
    · obtain ⟨p, hp, -⟩ := hb.exists_mem_runItems
      by_cases hmem : b ∈ d'.descendants p
      · exact .inl ⟨hb, p, hp, hmem⟩
      · exact .inr (hout.mem_of_beside hd wf hbreaks hms hb hp hmem)
    · exact .inr hb
  refine ⟨more ++ breaks, hall, heq ▸ hout.foldl_detachFromRun hd wf fun b hb => ?_⟩
  exact break_of_beside hall b (List.mem_append_left _ hb)

theorem trimmed_foldl (hms : ∀ m ∈ ms, d.isRunText m = true) :
    d.Trimmed (ms.foldl Document.trimLineBreaks d) ms := by
  induction ms using List.reverseRecOn with
  | nil => exact wf.trimmed_nil
  | append_singleton ms m ih =>
    rw [List.forall_mem_append, List.forall_mem_singleton] at hms
    rw [List.foldl_concat]
    exact ((ih hms.1).trimLineBreaks hd wf hms.1 hms.2).congr fun i => by simp [or_comm]

/-- No break is left beside a text at which was trimmed. -/
theorem Trimmed.not_beside (h : d.Trimmed d' ms) (hms : ∀ m ∈ ms, d.isRunText m = true) (hm : m ∈ ms) :
    d'.ancestors m = d.ancestors m ∧ ∀ b, ¬ d'.Beside m b := by
  obtain ⟨breaks, hbreaks, hout⟩ := h
  have htexts := fun t ht x hx => hd.goesWith_eq_false wf (break_of_beside hbreaks) (t := t) (x := x) ht hx
  refine ⟨hout.ancestors_eq wf (htexts m (hms m hm)), fun b hb => ?_⟩
  obtain ⟨hbefore, p, -, hmem⟩ := (hout.beside_iff wf htexts (hms m hm)).mp hb
  have hstays := (hout.parent?_of_mem_descendants wf hmem).1
  rw [goesWith_iff.mpr (.inl ((hbreaks b).mpr ⟨m, hm, hbefore⟩))] at hstays
  cases hstays

end Trimmed

/-- Two results of trimming at the same texts are alike. -/
theorem Trimmed.sameTrees {ms : List NodeId} {d'' : Document} (h : d.Trimmed d' ms) (h' : d.Trimmed d'' ms) :
    d'.SameTrees d'' := by
  obtain ⟨breaks, hbreaks, hout⟩ := h
  obtain ⟨breaks', hbreaks', hout'⟩ := h'
  exact hout.sameTrees (hout'.congr (goesWith_congr fun b => (hbreaks b).trans (hbreaks' b).symm))

/-- Trimming at texts of runs takes out all breaks beside them, with the runs that are left empty, and nothing
else, whatever the order. -/
theorem WellFormed.foldl_trimLineBreaks (wf : d.WellFormed) (hd : d.PlainRuns) {ms : List NodeId}
    (hms : ∀ m ∈ ms, d.isRunText m = true) :
    d.Trimmed (ms.foldl trimLineBreaks d) ms ∧
      (∀ m ∈ ms, (ms.foldl trimLineBreaks d).ancestors m = d.ancestors m ∧
        ∀ b, ¬ (ms.foldl trimLineBreaks d).Beside m b) ∧
      ∀ ms' : List NodeId, ms'.Perm ms →
        (ms.foldl trimLineBreaks d).SameTrees (ms'.foldl trimLineBreaks d) := by
  have h := trimmed_foldl hd wf hms
  refine ⟨h, fun m hm => h.not_beside hd wf hms hm, fun ms' hperm => ?_⟩
  have hms' : ∀ m ∈ ms', d.isRunText m = true := fun m hm => hms m (hperm.mem_iff.mp hm)
  exact h.sameTrees ((trimmed_foldl hd wf hms').congr fun m => hperm.mem_iff.symm)

/-- A paragraph of two texts with breaks between them and behind. -/
def brokenLines : Document :=
  ofTree ⟨Word.paragraph, []⟩ <|
    cons (.element ⟨Word.run, []⟩)
      (cons (.element ⟨Word.text, []⟩) (tree (.text "a") nil) (tree (.element ⟨Word.lineBreak, []⟩) nil)) <|
    cons (.element ⟨Word.run, []⟩) (tree (.element ⟨Word.lineBreak, []⟩) nil) <|
    tree (.element ⟨Word.run, []⟩)
      (cons (.element ⟨Word.text, []⟩) (tree (.text "b") nil) (tree (.element ⟨Word.lineBreak, []⟩) nil))

theorem foldl_trimLineBreaks_brokenLines :
    let trimmed := [⟨2⟩, ⟨8⟩].foldl trimLineBreaks brokenLines
    brokenLines.Trimmed trimmed [⟨2⟩, ⟨8⟩] ∧
      (∀ m ∈ ([⟨2⟩, ⟨8⟩] : List NodeId), trimmed.ancestors m = brokenLines.ancestors m ∧ ∀ b, ¬ trimmed.Beside m b) ∧
      ∀ ms' : List NodeId, ms'.Perm [⟨2⟩, ⟨8⟩] → trimmed.SameTrees (ms'.foldl trimLineBreaks brokenLines) :=
  (wellFormed_ofTree _ _).foldl_trimLineBreaks (by decide +kernel) (by decide +kernel)

/-- A run with a text, a break that holds a run with another text, and a break behind. -/
def textInBreak : Document :=
  ofTree ⟨Word.paragraph, []⟩ <|
    tree (.element ⟨Word.run, []⟩) <|
      cons (.element ⟨Word.text, []⟩) nil <|
      cons (.element ⟨Word.lineBreak, []⟩) (tree (.element ⟨Word.run, []⟩) (tree (.element ⟨Word.text, []⟩) nil)) <|
      tree (.element ⟨Word.lineBreak, []⟩) nil

/-- A text in a break goes with it. At the texts of this document the order counts, and one order leaves a break
beside the text that stays. -/
theorem order_counts_with_text_in_break :
    textInBreak.WellFormed ∧
      (∀ r ∈ textInBreak.ids, textInBreak.isNamed r Word.run = true →
        textInBreak.inRun r = false ∧ ∀ q ∈ textInBreak.ancestors r, textInBreak.isProperty q = false) ∧
      (∀ m ∈ ([⟨2⟩, ⟨5⟩] : List NodeId),
        textInBreak.isRunText m = true ∧ textInBreak.ancestorNamed? m Word.paragraph = some ⟨0⟩) ∧
      ([⟨2⟩, ⟨5⟩].foldl trimLineBreaks textInBreak).Beside ⟨2⟩ ⟨6⟩ ∧
      ¬ ([⟨2⟩, ⟨5⟩].foldl trimLineBreaks textInBreak).SameTrees ([⟨5⟩, ⟨2⟩].foldl trimLineBreaks textInBreak) := by
  refine ⟨wellFormed_ofTree _ _, by decide +kernel, by decide +kernel, ?_, fun h => ?_⟩
  · exact ⟨by decide +kernel, ⟨0⟩, by decide +kernel, .inl ⟨[], [⟨6⟩], by decide +kernel, by decide +kernel⟩⟩
  · exact absurd (h.treeAt_eq ⟨1⟩) (by decide +kernel)

end Xml.Document

end WordTemplate
