import Mathlib.Data.List.TakeWhile
import WordTemplate.Proofs.Binding.Below
import WordTemplate.Proofs.Xml.Keys
import WordTemplate.Proofs.Xml.Moves

/-!
# Writing several lines

A value is written into a text line by line: the first line into the text itself, and for each other line a
break and a text are put behind what is there already (`Adds`). The cursor moves along with the texts, so
the new nodes stand behind the text in one row, in front of its old siblings.

* `Text.joinWith_dropEndWhile`: the lines are the value without the carriage returns at line ends.
* `WellFormed.refills_writeText`: writing into the text itself.
* `WellFormed.adds_insertLines`: the row of breaks and texts behind it.
* `WellFormed.exists_writesLines_of_keysDistinct`, `Reachable.exists_writesLines`: what a value leaves, and that
  nothing else is changed.
-/

namespace WordTemplate

open Xml Forest

/-! ## Lines of a text -/

namespace Text

/-- The text without the carriage returns that stand directly in front of a line feed or at the end. -/
def dropReturns : List Char → List Char
  | [] => []
  | c :: s =>
    if c = '\r' ∧ (s.dropWhile (· == '\r')).head?.all (· == '\n') then dropReturns s
    else c :: dropReturns s

theorem dropEndWhile_cons (drop : Char → Bool) (c : Char) (s : List Char) :
    dropEndWhile drop (c :: s) =
      if s.all drop then (if drop c then [] else [c]) else c :: dropEndWhile drop s := by
  rw [dropEndWhile, dropEndWhile, List.reverse_cons, List.dropWhile_append]
  have hempty : (s.reverse.dropWhile drop).isEmpty = s.all drop := by
    rw [Bool.eq_iff_iff, List.isEmpty_iff, List.dropWhile_eq_nil_iff, List.all_eq_true]
    simp
  rw [hempty]
  split
  · rw [List.dropWhile_cons]
    split <;> rfl
  · simp

theorem pieces_cons_of_ne {sep c : Char} (hne : c ≠ sep) {s p : List Char} {ps : List (List Char)}
    (h : pieces sep s = p :: ps) : pieces sep (c :: s) = (c :: p) :: ps := by
  rw [pieces, if_neg hne, h]

/-- The first piece of a text holds nothing but `c` just if the text goes on with a separator behind all `c`
at its front, or ends there. -/
theorem all_of_pieces {sep c : Char} (hne : c ≠ sep) {s p : List Char} {ps : List (List Char)}
    (h : pieces sep s = p :: ps) : p.all (· == c) = (s.dropWhile (· == c)).head?.all (· == sep) := by
  induction s generalizing p with
  | nil =>
    obtain ⟨rfl, -⟩ := List.cons.inj h
    rfl
  | cons a s ih =>
    obtain ⟨q, qs, hs⟩ := List.exists_cons_of_ne_nil (pieces_ne_nil sep s)
    by_cases ha : a = sep
    · subst ha
      rw [pieces, if_pos rfl] at h
      obtain ⟨rfl, -⟩ := List.cons.inj h
      simp [Ne.symm hne]
    · rw [pieces_cons_of_ne ha hs] at h
      obtain ⟨rfl, rfl⟩ := List.cons.inj h
      by_cases hc : a = c
      · subst hc
        simp [ih hs]
      · have hac : (a == c) = false := by simpa using hc
        have has : (a == sep) = false := by simpa using ha
        rw [List.all_cons, List.dropWhile_cons_of_neg (by simp [hac]), hac, Bool.false_and]
        exact has.symm

theorem joinWith_cons_cons (sep : List Char) (c : Char) (p : List Char) (ps : List (List Char)) :
    joinWith sep ((c :: p) :: ps) = c :: joinWith sep (p :: ps) := by
  cases ps <;> simp [joinWith]

/-- The lines of a text without the carriage returns at their ends. -/
theorem joinWith_dropEndWhile (s : List Char) :
    joinWith ['\n'] ((pieces '\n' s).map (dropEndWhile (· == '\r'))) = dropReturns s := by
  induction s with
  | nil => rfl
  | cons c s ih =>
    obtain ⟨p, ps, hs⟩ := List.exists_cons_of_ne_nil (pieces_ne_nil '\n' s)
    by_cases hc : c = '\n'
    · subst hc
      rw [pieces, if_pos rfl, dropReturns, if_neg (by simp), ← ih, hs]
      rfl
    · rw [pieces_cons_of_ne hc hs, List.map_cons, dropEndWhile_cons, dropReturns]
      rw [hs, List.map_cons] at ih
      have hall := all_of_pieces (c := '\r') (by decide) hs
      by_cases hp : p.all (· == '\r') = true
      · have hdrop : dropEndWhile (· == '\r') p = [] := by
          rw [dropEndWhile, List.reverse_eq_nil_iff, List.dropWhile_eq_nil_iff]
          simpa using hp
        rw [hdrop] at ih
        rw [if_pos hp, ← hall, hp]
        by_cases hr : c = '\r'
        · rw [if_pos (by simpa using hr), if_pos ⟨hr, rfl⟩, ih]
        · rw [if_neg (by simpa using hr), if_neg (by simp [hr]), joinWith_cons_cons, ih]
      · rw [if_neg hp, ← hall, if_neg (by simp [hp]), joinWith_cons_cons, ih]

theorem length_pieces (sep : Char) (s : List Char) : (pieces sep s).length = s.count sep + 1 := by
  induction s with
  | nil => rfl
  | cons c s ih =>
    obtain ⟨p, ps, hs⟩ := List.exists_cons_of_ne_nil (pieces_ne_nil sep s)
    by_cases hc : c = sep
    · subst hc
      rw [pieces, if_pos rfl, List.length_cons, ih, List.count_cons_self]
    · rw [pieces_cons_of_ne hc hs, List.count_cons_of_ne hc, ← ih, hs, List.length_cons, List.length_cons]

end Text

/-! ## Putting new nodes behind a node -/

namespace Xml.Document

variable {d d₁ d' : Document} {n m p t : NodeId} {ns : List NodeId} {label : Label} {f : Forest Node}

/-- Whether `d'` is `d` with the new nodes `ns` directly behind `n`. -/
structure Adds (d d' : Document) (n : NodeId) (ns : List NodeId) : Prop where
  grows : d.Grows d'
  new : ∀ i ∈ ns, i ∉ d.ids
  label?_eq : ∀ m ∈ d.ids, d'.label? m = d.label? m
  parent?_eq : ∀ m ∈ d.ids, d'.parent? m = d.parent? m
  children_eq : ∀ m ∈ d.ids, d'.children m = putAfter n ns (d.children m)

namespace Adds

theorem refl (wf : d.WellFormed) (n : NodeId) : d.Adds d n [] :=
  ⟨.refl wf, by simp, fun _ _ => rfl, fun _ _ => rfl, fun m _ => (putAfter_nil n _).symm⟩

/-- Further nodes behind the one that was put in. -/
theorem trans (h : d.Adds d₁ n [t]) (h' : d₁.Adds d' t ns) (wf : d.WellFormed) (hn : n ∈ d.ids) :
    d.Adds d' n (t :: ns) := by
  have ht : t ∉ d.ids := h.new t (by simp)
  have hmem := h.grows.mem_ids
  refine ⟨h.grows.trans h'.grows, ?_, fun m hm => (h'.label?_eq m (hmem m hm)).trans (h.label?_eq m hm),
    fun m hm => (h'.parent?_eq m (hmem m hm)).trans (h.parent?_eq m hm), fun m hm => ?_⟩
  · exact List.forall_mem_cons.mpr ⟨ht, fun i hi hold => h'.new i hi (hmem i hold)⟩
  · rw [h'.children_eq m (hmem m hm), h.children_eq m hm,
      putAfter_putAfter (fun hc => ht (wf.mem_ids_of_mem_children hc)) fun he => ht (he ▸ hn)]

/-- A tree that the parent of `n` is not in stays as it was. -/
theorem treeAt_eq (h : d.Adds d' n ns) (wf : d.WellFormed) (hm : m ∈ d.ids) (hp : d.parent? n = some p)
    (hnot : p ∉ Xml.ids (d.treeAt m)) : d'.treeAt m = d.treeAt m :=
  wf.treeAt_congr h.grows.wellFormed hm fun i hi => by
    have hi' := wf.mem_ids_of_mem_treeAt hi
    refine ⟨h.label?_eq i hi', ?_⟩
    rw [h.children_eq i hi', putAfter_of_not_mem]
    intro hn
    obtain rfl : i = p := Option.some.inj ((wf.parent?_eq_some_iff.mpr hn).symm.trans hp)
    exact hnot hi

end Adds

/-- A new tree is put behind `n`. -/
theorem WellFormed.adds_insertAfter (wf : d.WellFormed) (hp : d.parent? n = some p)
    (hmakes : d.Makes d₁ t f) (hleaves : d.Leaves d₁ (· ∈ d.ids)) :
    d.Adds (d₁.insertAfter n t) n [t] ∧ (d₁.insertAfter n t).parent? t = some p ∧
      (d₁.insertAfter n t).treeAt t = f := by
  have wf₁ := hleaves.grows.wellFormed
  have hn : n ∈ d.ids := wf.mem_ids_of_parent? (by rw [hp]; rfl)
  have ht : t ∉ d.ids := fun h => hmakes.not_mem wf h
    (hmakes.treeAt_eq ▸ wf₁.mem_treeAt_self hmakes.mem_ids)
  have hr : d₁.Receives t n := hmakes.receives wf hn
  have hp₁ : d₁.parent? n = some p := ((hleaves.unchanged n hn).parent?_eq).trans hp
  have hsome : (d₁.parent? n).isSome := by rw [hp₁]; rfl
  have hgrows := wf₁.grows_insertAfter hr hsome
  have hchildren := wf₁.children_insertAfter hr hsome
  refine ⟨⟨hleaves.grows.trans hgrows, by simpa using ht, fun m hm => ?_, fun m hm => ?_, fun m hm => ?_⟩,
    ?_, ?_⟩
  · exact (wf₁.label?_insertBeside hr hsome (fun _ _ => .inr rfl) (hleaves.grows.mem_ids m hm)).trans
      (hleaves.unchanged m hm).label?_eq
  · exact (wf₁.parent?_insertBeside_of_ne hr hsome (fun _ _ => .inr rfl) fun he => ht (he ▸ hm)).trans
      (hleaves.unchanged m hm).parent?_eq
  · rw [hchildren, (hleaves.unchanged m hm).children_eq]
    rfl
  · rw [hgrows.wellFormed.parent?_eq_some_iff, hchildren, mem_flatMap_iff]
    exact .inr ⟨wf₁.parent?_eq_some_iff.mp hp₁, by simp⟩
  · rw [wf₁.treeAt_insertAfter hr hsome, if_pos (.inl (wf₁.mem_treeAt_self hmakes.mem_ids)),
      hmakes.treeAt_eq]

/-! ### Lines behind a text -/

/-- A new break. -/
def lineBreakElement : Forest Label :=
  tree (.element ⟨Word.lineBreak, []⟩) nil

/-- Whether each pair is a break and a text with the line that belongs to it. -/
abbrev ShowsLines (d : Document) (others : List (NodeId × NodeId)) (lines : List String) : Prop :=
  List.Forall₂ (fun e line => d.labelsAt e.1 = lineBreakElement ∧ d.labelsAt e.2 = textElement line) others lines

/-- A break is put behind a text, and a text behind the break. -/
theorem WellFormed.adds_insertLine (wf : d.WellFormed) (hp : d.parent? n = some p) (line : String) :
    ∃ br d₁, d.Adds d₁ n [br] ∧ d₁.Adds (d.insertLine n line).2 br [(d.insertLine n line).1] ∧
      d₁.parent? br = some p ∧ (d.insertLine n line).2.parent? (d.insertLine n line).1 = some p ∧
      (d.insertLine n line).2.labelsAt br = lineBreakElement ∧
      (d.insertLine n line).2.labelsAt (d.insertLine n line).1 = textElement line := by
  obtain ⟨hadds, hbr, htree⟩ := wf.adds_insertAfter hp (makes_addCopies wf (.element ⟨Word.lineBreak, []⟩) .nil)
    (wf.leaves_addCopies (fun _ h => h) (tree (.element ⟨Word.lineBreak, []⟩) .nil))
  generalize hd₁ : (d.addCopies (tree (.element ⟨Word.lineBreak, []⟩) .nil)).insertAfter n d.freshId = d₁
    at hadds hbr htree
  have wf₁ := hadds.grows.wellFormed
  obtain ⟨f, hf, hmakes⟩ := createTextElement_spec wf₁ line
  obtain ⟨hadds₁, ht, htree₁⟩ := wf₁.adds_insertAfter hbr hmakes
    (leaves_createTextElement wf₁ (fun _ h => h) line)
  have hmem : d.freshId ∈ d₁.ids := wf₁.mem_ids_of_parent? (by rw [hbr]; rfl)
  rw [insertLine_eq line hd₁]
  refine ⟨d.freshId, d₁, hadds, hadds₁, hbr, ht, ?_, ?_⟩
  · rw [labelsAt, hadds₁.treeAt_eq wf₁ hmem hbr (wf₁.parent?_not_mem hbr), htree]
    rfl
  · rw [labelsAt, htree₁, hf]

/-- Lines are put behind a text, each with a break in front of it. -/
theorem WellFormed.adds_insertLines (wf : d.WellFormed) (hp : d.parent? n = some p) (lines : List String) :
    ∃ others : List (NodeId × NodeId),
      d.Adds (lines.foldl (fun (cursor, d) line => d.insertLine cursor line) (n, d)).2 n
        (others.flatMap fun e => [e.1, e.2]) ∧
      (lines.foldl (fun (cursor, d) line => d.insertLine cursor line) (n, d)).2.ShowsLines others lines := by
  induction lines generalizing d n with
  | nil => exact ⟨[], .refl wf n, .nil⟩
  | cons line lines ih =>
    obtain ⟨br, d₁, hbr, ht, hpbr, hpt, hlbr, hlt⟩ := wf.adds_insertLine hp line
    rw [foldl_insertLine_cons]
    generalize d.insertLine n line = result at ht hpbr hpt hlbr hlt ⊢
    obtain ⟨t, d₂⟩ := result
    have wf₂ := ht.grows.wellFormed
    obtain ⟨others, hadds, hlabels⟩ := ih wf₂ hpt
    have hn : n ∈ d.ids := wf.mem_ids_of_parent? (by rw [hp]; rfl)
    have hbrmem : br ∈ d₁.ids := hbr.grows.wellFormed.mem_ids_of_parent? (by rw [hpbr]; rfl)
    have hpbr₂ : d₂.parent? br = some p := (ht.parent?_eq br hbrmem).trans hpbr
    refine ⟨(br, t) :: others, hbr.trans (ht.trans hadds hbr.grows.wellFormed hbrmem) wf hn,
      .cons ⟨?_, ?_⟩ hlabels⟩
    · rw [labelsAt, hadds.treeAt_eq wf₂ (ht.grows.mem_ids br hbrmem) hpt (wf₂.parent?_not_mem hpbr₂)]
      exact hlbr
    · have htmem : t ∈ d₂.ids := wf₂.mem_ids_of_parent? (by rw [hpt]; rfl)
      rw [labelsAt, hadds.treeAt_eq wf₂ htmem hpt (wf₂.parent?_not_mem hpt)]
      exact hlt

/-! ## Writing into a text -/

/-- Whether `d'` is `d` with other contents in `n`, so that the tree there is `f`. The children that `n` had
are taken out. -/
structure Refills (d d' : Document) (n : NodeId) (f : Forest Label) : Prop where
  grows : d.Grows d'
  labelsAt_eq : d'.labelsAt n = f
  label?_eq : ∀ m ∈ d.ids, m ≠ n → d'.label? m = d.label? m
  children_eq : ∀ m ∈ d.ids, m ≠ n → d'.children m = d.children m
  parent?_eq : ∀ m ∈ d.ids, d'.parent? m = if m ∈ d.children n then none else d.parent? m

theorem WellFormed.refills_takeChildren (wf : d.WellFormed) (h : d.label? n = some label) :
    d.Refills (d.takeChildren n).2 n (tree label nil) := by
  have hgrows := wf.grows_takeChildren n
  refine ⟨hgrows, ?_, fun m hm _ => wf.label?_takeChildren n hm, fun m _ hne => ?_, fun m _ => ?_⟩
  · obtain ⟨node, cs, hid, ht⟩ := wf.exists_treeAt (wf.mem_ids_of_label? h)
    have hlabel := (wf.label?_of_tree ht).1
    have hnd := wf.nodup_treeAt n
    rw [ht, ids_tree, List.nodup_cons, hid] at hnd
    rw [labelsAt, wf.treeAt_takeChildren, ht, if_neg (show n ∉ Xml.ids (tree node cs).firstChildren from hnd.1),
      replace_tree, if_pos (by simpa using hid)]
    rw [h] at hlabel
    rw [Option.some.inj hlabel]
    rfl
  · rw [wf.children_takeChildren, if_neg hne]
  · split
    · next hmem =>
      refine Option.eq_none_iff_forall_ne_some.mpr fun q hq => ?_
      rw [hgrows.wellFormed.parent?_eq_some_iff, wf.children_takeChildren] at hq
      split at hq
      · cases hq
      · next hne =>
        have hparent := wf.parent?_eq_some_iff.mpr hq
        rw [wf.parent?_eq_some_iff.mpr hmem] at hparent
        exact hne (Option.some.inj hparent).symm
    · next hmem => exact wf.parent?_takeChildren_of_not_mem hmem

/-- A new text is put into `n`. -/
theorem Refills.append_text {content : String} (h : d.Refills d₁ n (tree label nil)) (hn : n ∈ d.ids) :
    d.Refills ((d₁.createText content).2.append n (d₁.createText content).1) n
      (tree label (tree (.text content) nil)) := by
  have wf₁ := h.grows.wellFormed
  have hmade := wf₁.grows_addCopies (tree (.text content) nil)
  have hr : (d₁.addCopies (tree (.text content) nil)).Receives d₁.freshId n :=
    wf₁.receives_copy (.text content) nil (h.grows.mem_ids n hn)
  have hgrows := hmade.wellFormed.grows_append hr
  have hold : ∀ m ∈ d.ids, m ∈ d₁.ids := h.grows.mem_ids
  have hunchanged := fun m hm => wf₁.unchanged_addCopies (tree (.text content) nil) (hold m hm)
  refine ⟨h.grows.trans (hmade.trans hgrows), ?_, fun m hm hne => ?_, fun m hm hne => ?_, fun m hm => ?_⟩
  · obtain ⟨node, cs, hid, ht⟩ := wf₁.exists_treeAt (hold n hn)
    have hlabels := h.labelsAt_eq
    rw [labelsAt, ht, labels_tree] at hlabels
    obtain ⟨hlabel, hcs, -⟩ := Forest.cons.inj hlabels
    have hcopy := (makes_addCopies wf₁ (.text content) nil).treeAt_eq
    show labels (((d₁.addCopies (tree (.text content) nil)).append n d₁.freshId).treeAt n) = _
    rw [hmade.wellFormed.treeAt_append hr, if_neg hr.target_not_mem, wf₁.treeAt_addCopies_of_mem _ (hold n hn), ht,
      replace_tree, if_pos (by simpa using hid), labels_tree, labels_append, hlabel, hcs, hcopy]
    rfl
  · exact (hmade.wellFormed.label?_append hr (hmade.mem_ids m (hold m hm))).trans
      ((hunchanged m hm).label?_eq.trans (h.label?_eq m hm hne))
  · refine (hmade.wellFormed.children_append hr m).trans ?_
    rw [if_neg hne]
    exact (hunchanged m hm).children_eq.trans (h.children_eq m hm hne)
  · refine (hmade.wellFormed.parent?_append_of_ne hr ?_).trans
      ((hunchanged m hm).parent?_eq.trans (h.parent?_eq m hm))
    rintro rfl
    exact Nat.lt_irrefl _ (wf₁.lt_fresh _ (hold _ hm))

theorem WellFormed.refills_setText (wf : d.WellFormed) (h : d.label? n = some label)
    (hl : label.isElement = true) (content : String) :
    d.Refills (d.setText n content) n (tree label (textChildren content)) := by
  have hset : d.setText n content =
      if content.isEmpty then (d.takeChildren n).2
      else ((d.takeChildren n).2.createText content).2.append n
        ((d.takeChildren n).2.createText content).1 := by
    rw [setText, h]
    cases label with
    | text => cases hl
    | element => rfl
  have htake := wf.refills_takeChildren h
  rw [hset, textChildren]
  split
  · exact htake
  · exact htake.append_text (wf.mem_ids_of_label? h)

/-- Another label can be given to `n` before. -/
theorem Refills.of_relabel {change : Label → Label} {f : Forest Label} (h : (d.relabel n change).Refills d' n f)
    (wf : d.WellFormed) : d.Refills d' n f := by
  have hgrows := wf.grows_relabel n change
  refine ⟨hgrows.trans h.grows, h.labelsAt_eq, fun m hm hne => ?_, fun m hm hne => ?_, fun m hm => ?_⟩
  · exact (h.label?_eq m (hgrows.mem_ids m hm) hne).trans (wf.label?_relabel_ne hne change)
  · exact (h.children_eq m (hgrows.mem_ids m hm) hne).trans (wf.children_relabel n m change)
  · rw [h.parent?_eq m (hgrows.mem_ids m hm), wf.children_relabel,
      wf.parent?_congr hgrows.wellFormed fun q => by rw [wf.children_relabel]]

/-- Writing into a text that loses its mark. -/
theorem WellFormed.refills_writeText (wf : d.WellFormed) (h : d.label? n = some label)
    (hl : label.isElement = true) (content : String) :
    d.Refills ((d.eraseAttribute n Word.markAttribute).writeText n content) n
      (tree (writtenLabel label) (textChildren content)) := by
  have wf₁ := (wf.grows_relabel n (Label.eraseAttribute Word.markAttribute)).wellFormed
  have wf₂ := (wf₁.grows_relabel n (Label.setAttribute Word.spaceAttribute "preserve")).wellFormed
  have hlabel := wf₁.label?_relabel_self n (Label.setAttribute Word.spaceAttribute "preserve")
  rw [wf.label?_relabel_self, h] at hlabel
  exact ((wf₂.refills_setText hlabel (by simpa [writtenLabel] using hl) content).of_relabel wf₁).of_relabel wf

/-! ## Writing a value -/

/-- Whether `d'` is `d` with `value` in the text `n`, below `p`, and in new texts behind it. -/
structure WritesLines (d d' : Document) (n p : NodeId) (value : String) (others : List (NodeId × NodeId)) :
    Prop where
  grows : d.Grows d'
  /-- Breaks and texts by turns stand directly behind `n`. -/
  children_parent : d'.children p = putAfter n (others.flatMap fun e => [e.1, e.2]) (d.children p)
  new : ∀ e ∈ others, e.1 ∉ d.ids ∧ e.2 ∉ d.ids
  length_eq : others.length = value.toList.count '\n'
  labelsAt_break : ∀ e ∈ others, d'.labelsAt e.1 = lineBreakElement
  isText : ∀ t ∈ n :: others.map Prod.snd,
    d'.isNamed t Word.text = true ∧ d'.attribute? t Word.spaceAttribute = some "preserve"
  /-- The texts are the value, but for the carriage returns at the ends of lines. -/
  texts_eq : Text.joinWith ['\n'] ((n :: others.map Prod.snd).map fun t => (d'.innerText t).toList) =
    Text.dropReturns value.toList
  attribute?_mark : d'.attribute? n Word.markAttribute = none
  label?_self : d'.label? n = (d.label? n).map writtenLabel
  /-- The children that the text had are taken out. -/
  parent?_former : ∀ m ∈ d.children n, d'.parent? m = none
  parent?_eq : ∀ m ∈ d.ids, m ∉ d.children n → d'.parent? m = d.parent? m
  children_eq : ∀ m ∈ d.ids, m ≠ n → m ≠ p → d'.children m = d.children m
  label?_eq : ∀ m ∈ d.ids, m ≠ n → d'.label? m = d.label? m

/-- A label and a text below it. -/
theorem text_of_labelsAt {content : String} (h : d.labelsAt t = tree label (textChildren content))
    (hl : label.isElement = true) : d.label? t = some label ∧ d.innerText t = content := by
  cases ht : d.treeAt t with
  | nil =>
    rw [labelsAt, ht] at h
    cases h
  | cons node cs rest =>
    rw [labelsAt, ht, labels_cons] at h
    obtain ⟨hlabel, hcs, hrest⟩ := Forest.cons.inj h
    refine ⟨by rw [label?, ht]; exact congrArg some hlabel, ?_⟩
    rw [innerText, labelsAt, ht, labels_cons, hlabel, hcs, hrest]
    cases label with
    | text => cases hl
    | element tag => simp [Xml.innerText]

/-- A text that was written. -/
theorem isText_of_label? (h : d.label? t = some label) (hname : label.isNamed Word.text = true)
    (hspace : label.attribute? Word.spaceAttribute = some "preserve") :
    d.isNamed t Word.text = true ∧ d.attribute? t Word.spaceAttribute = some "preserve" :=
  ⟨isNamed_iff.mpr ⟨label, h, hname⟩, by rw [attribute?, h]; exact hspace⟩

theorem ShowsLines.texts {others : List (NodeId × NodeId)} {lines : List String} (h : d.ShowsLines others lines) :
    (others.map Prod.snd).map d.innerText = lines ∧
      ∀ e ∈ others, d.labelsAt e.1 = lineBreakElement ∧ ∃ line, d.labelsAt e.2 = textElement line := by
  induction h with
  | nil => exact ⟨rfl, by simp⟩
  | @cons e line others lines h _ ih =>
    refine ⟨?_, List.forall_mem_cons.mpr ⟨⟨h.1, line, h.2⟩, ih.2⟩⟩
    rw [List.map_cons, List.map_cons, (text_of_labelsAt h.2 rfl).2, ih.1]

section Parts

variable {value first : String} {lines : List String} {others : List (NodeId × NodeId)}

/-- The first line is written into the text, and the others behind it. -/
theorem WellFormed.writeValue_parts (wf : d.WellFormed) (hlabel : d.label? n = some label)
    (hl : label.isElement = true) (hp : d.parent? n = some p) (hlines : Word.valueLines value = first :: lines) :
    ∃ d₁, ∃ others : List (NodeId × NodeId),
      d.Refills d₁ n (tree (writtenLabel label) (textChildren first)) ∧
      d₁.Adds (d.writeValue n value) n (others.flatMap fun e => [e.1, e.2]) ∧
      (d.writeValue n value).ShowsLines others lines := by
  have hrefill := wf.refills_writeText hlabel hl first
  have hp₁ : ((d.eraseAttribute n Word.markAttribute).writeText n first).parent? n = some p := by
    rw [hrefill.parent?_eq n (wf.mem_ids_of_label? hlabel), if_neg (wf.not_mem_children_self n), hp]
  obtain ⟨others, hadds, hshows⟩ := hrefill.grows.wellFormed.adds_insertLines hp₁ lines
  rw [writeValue, hlines]
  exact ⟨_, others, hrefill, hadds, hshows⟩

variable (wf : d.WellFormed) (hrefill : d.Refills d₁ n (tree (writtenLabel label) (textChildren first)))
  (hadds : d₁.Adds d' n (others.flatMap fun e => [e.1, e.2])) (hp : d.parent? n = some p)
include wf hrefill hadds hp

/-- Both steps leave the first line in the text. -/
theorem Refills.text_of_adds (hl : label.isElement = true) :
    d'.label? n = some (writtenLabel label) ∧ d'.innerText n = first := by
  have hn := wf.mem_ids_of_parent? (n := n) (by rw [hp]; rfl)
  have hp₁ : d₁.parent? n = some p := by
    rw [hrefill.parent?_eq n hn, if_neg (wf.not_mem_children_self n), hp]
  have wf₁ := hrefill.grows.wellFormed
  refine text_of_labelsAt ?_ (by simpa [writtenLabel] using hl)
  rw [labelsAt, hadds.treeAt_eq wf₁ (hrefill.grows.mem_ids n hn) hp₁ (wf₁.parent?_not_mem hp₁)]
  exact hrefill.labelsAt_eq

theorem Refills.writesLines (hlabel : d.label? n = some label) (hname : label.isNamed Word.text = true)
    (hkeys : label.KeysDistinct) (hlines : Word.valueLines value = first :: lines)
    (hshows : d'.ShowsLines others lines) :
    d.WritesLines d' n p value others := by
  have hl : label.isElement = true := Label.WellMarked.isElement_of_isNamed hname
  have hpmem := wf.mem_ids_of_children (wf.parent?_eq_some_iff.mp hp)
  have hold : ∀ m ∈ d.ids, m ∈ d₁.ids := hrefill.grows.mem_ids
  obtain ⟨htexts, hothers⟩ := hshows.texts
  obtain ⟨hlabel', hfirst⟩ := hrefill.text_of_adds wf hadds hp hl
  exact {
    grows := hrefill.grows.trans hadds.grows
    children_parent := by
      rw [hadds.children_eq p (hold p hpmem), hrefill.children_eq p hpmem (wf.ne_of_parent? hp)]
    new := fun e he => by
      have hnew := fun i hi hmem => hadds.new i (List.mem_flatMap.mpr ⟨e, he, hi⟩) (hold i hmem)
      exact ⟨hnew e.1 (by simp), hnew e.2 (by simp)⟩
    length_eq := by
      have hlength := congrArg List.length hlines
      rw [Word.valueLines, List.length_map, Text.length_pieces, List.length_cons] at hlength
      rw [hshows.length_eq]
      omega
    labelsAt_break := fun e he => (hothers e he).1
    isText := by
      refine List.forall_mem_cons.mpr ⟨?_, List.forall_mem_map.mpr fun e he => ?_⟩
      · exact isText_of_label? hlabel' (by rwa [isNamed_writtenLabel])
          (Label.attribute?_setAttribute_self (by simpa using hl))
      · obtain ⟨-, line, hline⟩ := hothers e he
        exact isText_of_label? (text_of_labelsAt hline rfl).1 (by decide) (by decide)
    texts_eq := by
      have hinner : (n :: others.map Prod.snd).map (fun t => (d'.innerText t).toList) =
          (Word.valueLines value).map String.toList := by
        simp [hlines, hfirst, ← htexts]
      rw [hinner, Word.valueLines, List.map_map, ← Text.joinWith_dropEndWhile]
      exact congrArg _ (List.map_congr_left fun line _ => String.toList_ofList)
    attribute?_mark := by
      rw [attribute?, hlabel', Option.bind_some, writtenLabel, Label.attribute?_setAttribute_ne (by decide)]
      exact hkeys.attribute?_eraseAttribute _
    label?_self := by
      rw [hlabel', hlabel]
      rfl
    parent?_former := fun m hm => by
      have hmem := wf.mem_ids_of_mem_children hm
      rw [hadds.parent?_eq m (hold m hmem), hrefill.parent?_eq m hmem, if_pos hm]
    parent?_eq := fun m hmem hm => by
      rw [hadds.parent?_eq m (hold m hmem), hrefill.parent?_eq m hmem, if_neg hm]
    children_eq := fun m hmem hmn hmp => by
      rw [hadds.children_eq m (hold m hmem), hrefill.children_eq m hmem hmn, putAfter_of_not_mem]
      intro hn
      rw [← wf.parent?_eq_some_iff, hp] at hn
      exact hmp (Option.some.inj hn).symm
    label?_eq := fun m hmem hmn => by
      rw [hadds.label?_eq m (hold m hmem), hrefill.label?_eq m hmem hmn] }

end Parts

/-- A value is written line by line, and no other node is changed. -/
theorem WellFormed.exists_writesLines_of_keysDistinct (wf : d.WellFormed)
    (hkeys : ∀ label, d.label? n = some label → label.KeysDistinct)
    (htext : d.isNamed n Word.text = true) (hp : d.parent? n = some p) (value : String) :
    ∃ others, d.WritesLines (d.writeValue n value) n p value others := by
  obtain ⟨label, hlabel, hname⟩ := isNamed_iff.mp htext
  obtain ⟨first, lines, hlines⟩ := List.exists_cons_of_ne_nil (valueLines_ne_nil value)
  obtain ⟨d₁, others, hrefill, hadds, hshows⟩ :=
    wf.writeValue_parts hlabel (Label.WellMarked.isElement_of_isNamed hname) hp hlines
  exact ⟨others, hrefill.writesLines wf hadds hp hlabel hname (hkeys label hlabel) hlines hshows⟩

end Xml.Document

/-- In every document that can be reached, a value that is written gives one text for each of its lines. -/
theorem Xml.Reachable.exists_writesLines {d : Document} {n p : NodeId} (h : Reachable d)
    (htext : d.isNamed n Word.text = true) (hp : d.parent? n = some p) (value : String) :
    ∃ others, d.WritesLines (d.writeValue n value) n p value others :=
  h.wellFormed.1.exists_writesLines_of_keysDistinct
    (fun _ hl => h.wellFormed.1.keysDistinct_of_label? h.keysDistinct hl) htext hp value

/-- Two lines for a marked text with content. -/
theorem Xml.Reachable.exists_writesLines_marked :
    let d := [Edit.createElement "w:t", .append ⟨0⟩ ⟨1⟩, .setText ⟨1⟩ "name",
      .setAttribute ⟨1⟩ Word.markAttribute "Variable"].foldl Edit.apply (Document.ofRoot "w:r")
    ∃ others, d.WritesLines (d.writeValue ⟨1⟩ "x\r\ny") ⟨1⟩ ⟨0⟩ "x\r\ny" others := by
  refine Reachable.exists_writesLines ?_ (by decide +kernel) (by decide +kernel) _
  exact Reachable.new "w:r" |>.edit (e := .createElement "w:t") (by decide +kernel)
    |>.edit (e := .append ⟨0⟩ ⟨1⟩) (by decide +kernel)
    |>.edit (e := .setText ⟨1⟩ "name") (by decide +kernel)
    |>.edit (e := .setAttribute ⟨1⟩ Word.markAttribute "Variable") (by decide +kernel)

end WordTemplate
