import WordTemplate.Proofs.Binding.Below
import WordTemplate.Proofs.Block.Boundary
import WordTemplate.Proofs.Block.Course
import WordTemplate.Proofs.Block.Grids
import WordTemplate.Proofs.Block.RowContents
import WordTemplate.Proofs.Word.Spacing
import WordTemplate.Proofs.Xml.Navigation

/-!
# Blanks in the course of an expansion

Blocks are placed, taken out and expanded without a look at what texts say. Texts are divided nowhere, and nothing is
put into them, so what is known of the texts whose blanks do not count (`Spaced`) is known of them afterwards.

* `placeAll_rearranged`: placing blocks.
* `extractAll_spaced`: taking out their contents.
* `runs_expandAll_spaced`: expanding them.
-/

namespace WordTemplate

open Xml Forest Binding Xml.Document

variable {σ : Type} {Q : List Char → Prop} {d₀ d d' d'' : Document} {n m c p place start stop first last above : NodeId}

/-! ## Placing blocks -/

namespace Xml.Document

/-- Whether nodes were only made or moved, and what is known of texts is known of them still. -/
structure Rearranged (Q : List Char → Prop) (d d' : Document) : Prop where
  grows : d.Grows d'
  each : Each (Spacing Q) d'.trees
  name?_eq : ∀ n ∈ d.ids, d'.name? n = d.name? n

theorem Tracks.rearranged (h : Tracks (Spacing Q) d d') : Rearranged Q d d' :=
  ⟨h.gains.grows, h.each, h.gains.name?_eq⟩

namespace Rearranged

theorem trans (h : Rearranged Q d d') (h' : Rearranged Q d' d'') : Rearranged Q d d'' where
  grows := h.grows.trans h'.grows
  each := h'.each
  name?_eq n hn := (h'.name?_eq n (h.grows.mem_ids n hn)).trans (h.name?_eq n hn)

theorem name?_ne_none (h : Rearranged Q d d') (wf : d.WellFormed) (hn : d.name? n ≠ none) : d'.name? n ≠ none := by
  rwa [h.name?_eq n (wf.mem_ids_of_name? hn)]

theorem bears (h : Rearranged Q d d') (wf : d.WellFormed) (hn : d.Bears n) : d'.Bears n := by
  obtain ⟨name, hname, hne⟩ := hn
  exact ⟨name, (h.name?_eq n (wf.mem_ids_of_name? (by simp [hname]))).trans hname, hne⟩

end Rearranged

/-- What is above an element is an element that is no text. -/
theorem WellFormed.bears_of_isBelow (wf : d.WellFormed) (h : Each (Spacing Q) d.trees) (hn : d.name? n ≠ none)
    (hbelow : d.IsBelow n p) : d.Bears p := by
  induction hbelow with
  | single hp => exact wf.offText_of_element h hn _ hp
  | tail _ hp ih => exact wf.offText_of_element h ih.name?_ne_none _ hp

theorem WellFormed.name?_ne_none_of_childToward? (wf : d.WellFormed) (h : Each (Spacing Q) d.trees)
    (hn : d.name? n ≠ none) (hc : d.childToward? p n = some c) : d.name? c ≠ none := by
  obtain ⟨-, rfl | hbelow⟩ := wf.childToward?_eq_some_iff.mp hc
  · exact hn
  · exact (wf.bears_of_isBelow h hn hbelow).name?_ne_none

section Divide

variable (wf : d.WellFormed) (h : Each (Spacing Q) d.trees) (hc : d.name? c ≠ none) (hplace : d.name? place ≠ none)
include wf h hc hplace

/-- Dividing an element at an element. -/
theorem divideAfter_rearranged : Rearranged Q d (d.divideAfter c place).2 ∧
    ∀ m ∈ (d.divideAfter c place).1, (d.divideAfter c place).2.name? m ≠ none := by
  obtain ⟨l, hl, helement⟩ := name?_ne_none_iff.mp hplace
  refine ⟨⟨(wf.allots_divideAfter c place).grows, ?_, fun m hm => ?_⟩, fun m hm => ?_⟩
  · exact wf.each_divideAfter h (divisible_spacing Q d.fresh) (wf.movable_of_element h hc) fun l' hl' =>
      Option.some.inj (hl.symm.trans hl') ▸ helement
  · rw [name?, wf.label?_divideAfter hm, name?]
  · rwa [name?, wf.label?_of_mem_divideAfter (wf.mem_ids_of_name? hc) hm]

theorem divideBefore_rearranged : Rearranged Q d (d.divideBefore c place).2 := by
  obtain ⟨l, hl, helement⟩ := name?_ne_none_iff.mp hplace
  refine ⟨(wf.allots_divideBefore c place).grows, ?_, fun m hm => ?_⟩
  · exact wf.each_divideBefore h (divisible_spacing Q d.fresh) (wf.movable_of_element h hc) fun l' hl' =>
      Option.some.inj (hl.symm.trans hl') ▸ helement
  · rw [name?, wf.label?_divideBefore hm, name?]

end Divide

end Xml.Document

namespace Block

section Place

variable (wf : d.WellFormed) (h : Each (Spacing Q) d.trees)
include wf h

theorem insertElement_of_name (label : Label) (hn : d.name? n ≠ none) (hl : label.isElement = true)
    (htext : label.isNamed Word.text = false) {j : Forest Node → Forest Node → Forest Node}
    (hput : ∀ f g, j f g = f ++ g ∨ j f g = g ++ f) :
    Tracks (Spacing Q) d ((d.create label).2.insertBeside j n d.freshId) ∧
      ((d.create label).2.insertBeside j n d.freshId).name? d.freshId ≠ none :=
  (Tracks.refl wf h).insertElement_spaced (wf.mem_ids_of_name? hn) (wf.offText_of_element h hn) hl htext hput

theorem surroundRows_spaced (hfirst : d.name? first ≠ none) (hlast : d.name? last ≠ none) :
    Tracks (Spacing Q) d (surroundRows d first last).2 ∧
      (surroundRows d first last).2.name? (surroundRows d first last).1.1 ≠ none := by
  obtain ⟨hbefore, hname⟩ := insertElement_of_name wf h (.element ⟨Word.row, []⟩) hfirst rfl rfl
    (j := fun moved sibling => moved ++ sibling) fun _ _ => .inl rfl
  have wf₁ := hbefore.wellFormed
  obtain ⟨hafter, -⟩ := insertElement_of_name wf₁ hbefore.each (.element ⟨Word.row, []⟩)
    (hbefore.gains.name?_ne_none wf hlast) rfl rfl (j := fun moved sibling => sibling ++ moved) fun _ _ => .inr rfl
  exact ⟨hbefore.trans hafter, hafter.gains.name?_ne_none wf₁ hname⟩

theorem insertAnchor_spaced (habove : d.Bears above) {parts : List NodeId}
    (hparts : ∀ n ∈ parts, d.name? n ≠ none) (endsElsewhere : Bool) :
    Tracks (Spacing Q) d (insertAnchor d above parts endsElsewhere).2 ∧
      (insertAnchor d above parts endsElsewhere).2.name? (insertAnchor d above parts endsElsewhere).1 ≠ none := by
  have hd := Tracks.refl wf h
  have hmade : Tracks (Spacing Q) d (d.createElement Word.paragraph).2 := hd.create_spaced rfl rfl
  have hmakes : d.Makes (d.createElement Word.paragraph).2 d.freshId _ :=
    makes_addCopies wf (.element ⟨Word.paragraph, []⟩) nil
  have hname : (d.createElement Word.paragraph).2.name? d.freshId ≠ none :=
    name?_ne_none_of_isNamed (isNamed_freshId wf Word.paragraph)
  unfold insertAnchor
  dsimp only
  split
  · next single =>
    have hsingle := hparts single (List.mem_singleton_self _)
    split
    · next next hnext =>
      -- The siblings of an element are not directly below a text, whatever they are.
      have hnext := List.mem_of_find?_eq_some hnext
      rw [followingSiblings] at hnext
      split at hnext
      · replace hnext := List.mem_of_mem_drop hnext
        rw [show (d.createElement Word.paragraph).2 = d.addCopies _ from rfl,
          wf.siblings_addCopies _ (wf.mem_ids_of_name? hsingle)] at hnext
        obtain ⟨p, hsinglep, hnextp⟩ := wf.exists_of_mem_siblings hnext
        refine hd.insertElement_spaced (wf.mem_ids_of_mem_children hnextp) (fun q hq => ?_) rfl rfl fun _ _ => .inl rfl
        rw [wf.parent?_eq_some_iff.mpr hnextp] at hq
        obtain rfl := Option.some.inj hq
        exact wf.offText_of_element h hsingle p (wf.parent?_eq_some_iff.mpr hsinglep)
      · cases hnext
    · have hr := hmakes.receives wf (wf.mem_ids_of_name? habove.name?_ne_none)
      refine ⟨hmade.append_of_imp hr (fun i hi => hmakes.fresh_le i (by rwa [← hmakes.treeAt_eq]))
        fun node cs htree _ => (habove.of_gains wf hmade.gains).indifferent node cs htree _, ?_⟩
      show ((d.createElement Word.paragraph).2.append above d.freshId).name? d.freshId ≠ none
      rwa [name?, hmade.wellFormed.label?_append hr hmakes.mem_ids]
  · split
    · next tail htail =>
      exact insertElement_of_name wf h (.element ⟨Word.paragraph, []⟩) (hparts tail (List.mem_of_getLast? htail))
        rfl rfl fun _ _ => .inl rfl
    · exact ⟨hmade, hname⟩

/-- Placing a block. -/
theorem place?_rearranged (hstart : d.name? start ≠ none) (hstop : d.name? stop ≠ none)
    (hplace : place? d start stop = some ((first, last), d')) :
    Rearranged Q d d' ∧ d'.name? first ≠ none := by
  rw [place?] at hplace
  simp only [Option.bind_eq_bind, Option.bind_eq_some_iff] at hplace
  obtain ⟨above, habove, hplace⟩ := hplace
  have hbears := wf.bears_of_isBelow h hstart (wf.commonAncestor?_eq_some habove).1
  split at hplace
  · obtain ⟨-, -, hplace⟩ := Option.bind_eq_some_iff.mp hplace
    obtain ⟨hrows, hname⟩ := surroundRows_spaced wf h hbears.name?_ne_none hbears.name?_ne_none
    rw [show surroundRows d above above = ((first, last), d') by simpa using hplace] at hrows hname
    exact ⟨hrows.rearranged, hname⟩
  obtain ⟨startChild, hstartChild, hplace⟩ := Option.bind_eq_some_iff.mp hplace
  obtain ⟨stopChild, hstopChild, hplace⟩ := Option.bind_eq_some_iff.mp hplace
  have hstartName := wf.name?_ne_none_of_childToward? h hstart hstartChild
  have hstopName := wf.name?_ne_none_of_childToward? h hstop hstopChild
  split at hplace
  · obtain ⟨hrows, hname⟩ := surroundRows_spaced wf h hstartName hstopName
    rw [show surroundRows d startChild stopChild = ((first, last), d') by simpa using hplace] at hrows hname
    exact ⟨hrows.rearranged, hname⟩
  obtain ⟨hdivide, hparts⟩ := divideAfter_rearranged wf h hstartName hstart
  generalize d.divideAfter startChild start = divided at hdivide hparts hplace
  obtain ⟨parts, divided⟩ := divided
  dsimp only at hdivide hparts hplace
  have wf₁ := hdivide.grows.wellFormed
  obtain ⟨hanchor, hname⟩ := insertAnchor_spaced wf₁ hdivide.each (hdivide.bears wf hbears) hparts
    (startChild != stopChild)
  replace hanchor := hdivide.trans hanchor.rearranged
  generalize insertAnchor divided above parts (startChild != stopChild) = anchored at hanchor hname hplace
  obtain ⟨anchor, anchored⟩ := anchored
  dsimp only at hanchor hname hplace
  split at hplace
  · cases hplace
    exact ⟨hanchor, hname⟩
  · cases hplace
    have wf₂ := hanchor.grows.wellFormed
    have hstopped := divideBefore_rearranged wf₂ hanchor.each (hanchor.name?_ne_none wf hstopName)
      (hanchor.name?_ne_none wf hstop)
    exact ⟨hanchor.trans hstopped, hstopped.name?_ne_none wf₂ hname⟩

end Place

/-- Whether blocks start and stop at elements. -/
def StartStop (d : Document) (F : Forest (Nat × Block)) : Prop :=
  ∀ b ∈ F.toList, d.name? b.2.start.node ≠ none ∧ d.name? b.2.stop.node ≠ none

/-- Whether blocks begin at elements. -/
def Begins (d : Document) (P : Forest Placed) : Prop :=
  ∀ p ∈ P.toList, d.name? p.first ≠ none

theorem placeOne_rearranged {number : Nat} {b : Block} {p : Placed} (wf : d.WellFormed) (h : Each (Spacing Q) d.trees)
    (hstart : d.name? b.start.node ≠ none) (hstop : d.name? b.stop.node ≠ none)
    (hrun : placeOne number b d = .ok p d') : Rearranged Q d d' ∧ d'.name? p.first ≠ none := by
  rw [placeOne_eq_match] at hrun
  split at hrun
  · cases hrun
  · next first last d₁ hplace =>
    cases hrun
    obtain ⟨hplaced, hname⟩ := place?_rearranged wf h hstart hstop hplace
    have wf₁ := hplaced.grows.wellFormed
    have hattached := ((Tracks.refl wf₁ hplaced.each).setAttribute_spaced first Word.insertionAttribute
      (startPoint b.kind number).id fun he => absurd he (by decide)).setAttribute_spaced last
        Word.insertionAttribute (endPoint b.kind number).id fun he => absurd he (by decide)
    exact ⟨hplaced.trans hattached.rearranged, hattached.gains.name?_ne_none wf₁ hname⟩

/-- Placing blocks. -/
theorem placeAll_rearranged {F : Forest (Nat × Block)} {P : Forest Placed} (wf : d.WellFormed)
    (h : Each (Spacing Q) d.trees) (hF : StartStop d F) (hrun : placeAll F d = .ok P d') :
    Rearranged Q d d' ∧ Begins d' P := by
  induction F generalizing d P d' with
  | nil =>
    cases hrun
    exact ⟨(Tracks.refl wf h).rearranged, fun p hp => by cases hp⟩
  | cons b inner rest ihi ihr =>
    obtain ⟨p, d₁, I, d₂, R, h₁, h₂, h₃, rfl⟩ := exists_of_placeAll_cons hrun
    simp only [StartStop, toList, List.forall_mem_cons, List.forall_mem_append] at hF
    obtain ⟨⟨hstart, hstop⟩, hinner, hrest⟩ := hF
    obtain ⟨hone, hname⟩ := placeOne_rearranged wf h hstart hstop h₁
    have wf₁ := hone.grows.wellFormed
    obtain ⟨hmid, hbegins⟩ := ihi wf₁ hone.each
      (fun b hb => (hinner b hb).imp (hone.name?_ne_none wf) (hone.name?_ne_none wf)) h₂
    have wf₂ := hmid.grows.wellFormed
    have htwo := hone.trans hmid
    obtain ⟨hlast, hbegins'⟩ := ihr wf₂ hmid.each
      (fun b hb => (hrest b hb).imp (htwo.name?_ne_none wf) (htwo.name?_ne_none wf)) h₃
    refine ⟨htwo.trans hlast, ?_⟩
    simp only [Begins, toList, List.forall_mem_cons, List.forall_mem_append]
    exact ⟨hlast.name?_ne_none wf₂ (hmid.name?_ne_none wf₁ hname),
      fun p hp => hlast.name?_ne_none wf₂ (hbegins p hp), hbegins'⟩

end Block

/-! ## Taking out contents -/

theorem Xml.Document.Tracks.detachAll_spaced (h : Tracks (Spacing Q) d₀ d) (ns : List NodeId)
    (hns : ∀ n ∈ ns, d.OffText n) : Tracks (Spacing Q) d₀ (d.detachAll ns) := by
  induction ns generalizing d with
  | nil => exact h
  | cons n ns ih =>
    have wf := h.wellFormed
    rw [List.forall_mem_cons] at hns
    have hstep := (Tracks.refl wf h.each).detach_of_movable hns.1.movable
    refine ih (h.trans hstep) fun m hm => (hns.2 m hm).of_gains wf hstep.gains ?_
    by_cases he : m = n
    · exact .inr (wf.parent?_detach (.inl he))
    · exact .inl (wf.parent?_detach_of_ne he)

/-- The contents of blocks stand beside elements. -/
theorem Block.extractAll_spaced {P : Forest Placed} (h : Tracks (Spacing Q) d d) (hP : Begins d P) :
    Tracks (Spacing Q) d (extractAll P d).2 := by
  induction P generalizing d with
  | nil => exact h
  | cons p inner rest ihi ihr =>
    simp only [Begins, toList, List.forall_mem_cons, List.forall_mem_append] at hP
    obtain ⟨hfirst, hinner, hrest⟩ := hP
    have h₁ := ihi h hinner
    have wf₁ := h₁.wellFormed
    have h₂ := (Tracks.refl wf₁ h₁.each).detachAll_spaced ((extractAll inner d).2.between p.first p.last)
      fun n hn => by
        obtain ⟨q, hfirstq, hq⟩ := wf₁.exists_of_mem_siblings (mem_siblings_of_mem_between hn)
        intro q' hq'
        obtain rfl := Option.some.inj ((wf₁.parent?_eq_some_iff.mpr hq).symm.trans hq')
        exact wf₁.offText_of_element h₁.each (h₁.gains.name?_ne_none h.wellFormed hfirst) q
          (wf₁.parent?_eq_some_iff.mpr hfirstq)
    have htwo := h₁.trans h₂
    rw [extractAll_cons_eq]
    exact htwo.trans (ihr (.refl h₂.wellFormed h₂.each) fun p hp => htwo.gains.name?_ne_none h.wellFormed (hrest p hp))

/-! ## Copies -/

namespace Xml.Document

/-- Putting copies of trees behind the children of an element that is no text. -/
theorem Tracks.appendCopies_spaced (h : Tracks (Spacing Q) d d) (hn : d.Bears n) {ns : List NodeId}
    (hns : ∀ c ∈ ns, c ∈ d.ids) : Tracks (Spacing Q) d (d.appendCopies n ns) := by
  induction ns generalizing d with
  | nil => exact h
  | cons c ns ih =>
    have wf := h.wellFormed
    rw [List.forall_mem_cons] at hns
    obtain ⟨a, as, rfl, htree⟩ := wf.exists_treeAt hns.1
    have hlabels : d.labelsAt a.id = tree a.label (labels as) := by rw [labelsAt, htree, labels_tree]
    have hmakes := makes_addCopies wf a.label (labels as)
    have hcopied : Tracks (Spacing Q) d (d.addCopies (tree a.label (labels as))) := by
      rw [← hlabels]
      exact h.addCopies (each_spacing_identify.mpr (each_spacing_iff.mp (wf.each_treeAt h.each a.id)))
    have hstep := hcopied.append_of_imp (hmakes.receives wf (wf.mem_ids_of_name? hn.name?_ne_none))
      (fun i hi => hmakes.fresh_le i (by rwa [hmakes.treeAt_eq] at hi))
      fun node cs hnode _ => (hn.of_gains wf hcopied.gains).indifferent node cs hnode _
    have hcopy : d.appendCopies n (a.id :: ns) =
        ((d.addCopies (tree a.label (labels as))).append n d.freshId).appendCopies n ns := by
      rw [Document.appendCopies, List.foldl_cons, copy, hlabels]
      rfl
    rw [hcopy]
    exact hstep.trans (ih (.refl hstep.wellFormed hstep.each) (hn.of_gains wf hstep.gains)
      fun m hm => hstep.gains.grows.mem_ids m (hns.2 m hm))

/-- Putting new trees behind a node, one after another. -/
theorem Tracks.insertAllAfter_spaced {f : Forest Node} (h : Tracks (Spacing Q) d₀ d) (hn : n ∈ d.ids)
    (hoff : d.OffText n) (hf : d.Parted f) (hnot : n ∉ Xml.ids f) (hnew : ∀ i ∈ Xml.ids f, i ∉ d₀.ids) :
    Tracks (Spacing Q) d₀ (d.insertAllAfter n (f.roots.map Node.id)).2 ∧
      (d.insertAllAfter n (f.roots.map Node.id)).2.OffText (d.insertAllAfter n (f.roots.map Node.id)).1 := by
  induction f generalizing d n with
  | nil => exact ⟨h, hoff⟩
  | cons node cs rest _ ih =>
    have wf := h.wellFormed
    have htree := hf.treeAt_eq .nil node cs rest rfl
    have hr := hf.receives wf hn hnot
    have hput : ∀ f g : Forest Node, g ++ f = f ++ g ∨ g ++ f = g ++ f := fun _ _ => .inr rfl
    have hstep : Tracks (Spacing Q) d₀ (d.insertAfter n node.id) := by
      refine h.insertBeside_of_movable hoff.movable hr hput fun i hi => ?_
      refine (h.gains.grows.mem_or_fresh i (wf.mem_ids_of_mem_treeAt hi)).resolve_left (hnew i ?_)
      rw [htree] at hi
      rw [ids_cons]
      simp at hi ⊢
      tauto
    have hgrows : d.Grows (d.insertAfter n node.id) := wf.grows_beside hr hput
    -- The next one goes behind this one, which has the parent of the cursor now.
    have hnext : (d.insertAfter n node.id).OffText node.id := by
      intro q hq
      cases hp : d.parent? n with
      | none =>
        rw [Document.insertAfter, Document.insertBeside, hp, hr.parent?_eq] at hq
        cases hq
      | some p =>
        have hsome : (d.parent? n).isSome := by rw [hp]; rfl
        have hchild := hgrows.wellFormed.parent?_eq_some_iff.mp hq
        rw [Document.insertAfter, wf.children_insertBeside hr hsome hput, mem_flatMap_iff] at hchild
        rcases hchild with ⟨hchild, -⟩ | ⟨hchild, -⟩
        · rw [← wf.parent?_eq_some_iff, hr.parent?_eq] at hchild
          cases hchild
        · obtain ⟨name, hname, hne⟩ := hoff q (wf.parent?_eq_some_iff.mpr hchild)
          refine ⟨name, ?_, hne⟩
          rw [name?, Document.insertAfter, wf.label?_insertBeside hr hsome hput
            (wf.mem_ids_of_name? (n := q) (by simp [hname]))]
          exact hname
    have hnd := hf.nodup
    rw [ids_cons, List.nodup_cons, List.mem_append, not_or] at hnd
    exact ih hstep (hgrows.mem_ids _ hr.mem_ids) hnext (hf.insertAfter wf hn hnot) hnd.1.2
      fun i hi => hnew i (by simp [hi])

end Xml.Document

/-- Writing values into placeholders. -/
theorem Rewrites.spaced {root : NodeId} {ns : List NodeId} (hr : Rewrites root d ns d')
    (h : Tracks (Spacing Q) d d) (hQ : Q []) : Tracks (Spacing Q) d d' := by
  have wf := h.wellFormed
  induction hr with
  | refl => exact h
  | write value _ hn ih =>
    obtain ⟨-, htext⟩ := wf.mem_textElements_iff.mp (List.mem_of_mem_filter hn)
    exact ih.writeValue_spaced hQ (ih.gains.isNamed_of wf htext) value

/-! ## Expanding blocks -/

section Expand

variable {driver : Driver σ} {t : Block.Template} {T : Forest Block.Template} {select : Block.Selection}
  {strip verbatim : Bool} {scope : NodeId} {w : Workspace σ}

/-- Whether what is known of texts is known of them still, and no node has got another parent. -/
structure Stays (Q : List Char → Prop) (d d' : Document) : Prop where
  tracks : Tracks (Spacing Q) d d'
  keeps : KeepsGrid (fun _ => False) d d'

theorem grid_false (wf : d.WellFormed) : Grid (fun _ => False) d :=
  ⟨wf, fun _ h => h.elim, fun _ h => h.elim, fun _ h => h.elim⟩

theorem Stays.refl (wf : d.WellFormed) (h : Each (Spacing Q) d.trees) : Stays Q d d :=
  ⟨.refl wf h, (grid_false wf).refl⟩

theorem Stays.trans (h : Stays Q d d') (h' : Stays Q d' d'') : Stays Q d d'' :=
  ⟨h.tracks.trans h'.tracks, h.keeps.trans h'.keeps⟩

/-- Filling in placeholders, which writes values into texts. -/
theorem runs_substitute_stays (hdriver : driver.RewritesPlaceholders) (hQ : Q []) (wf : w.document.WellFormed)
    (h : Each (Spacing Q) w.document.trees) (root : NodeId) :
    Runs (Block.ask (driver.substitute root)) w (fun _ w' => Stays Q w.document w'.document) fun _ _ => True :=
  Runs.ask ((hdriver root w).mono (fun _ _ ⟨_, hns⟩ => ⟨hns.spaced (.refl wf h) hQ,
    (grid_false wf).refl.retouches (hns.retouches wf.textsLoose)⟩) fun _ _ _ => trivial)

/-- A document with contents of blocks in which something is known of the texts. -/
structure SpacedWith (Q : List Char → Prop) (T : Forest Block.Template) (d : Document) : Prop where
  wellFormed : d.WellFormed
  each : Each (Spacing Q) d.trees
  detached : Detached d T

theorem SpacedWith.stays (h : SpacedWith Q T d) (h' : Stays Q d d') : SpacedWith Q T d' :=
  ⟨h'.tracks.wellFormed, h'.tracks.each, h.detached.keeps h'.keeps⟩

/-- An expansion is to keep what is known of the texts. -/
def spacingKeeping (Q : List Char → Prop) : Keeping where
  ready _ := SpacedWith Q
  cursor d n := n ∈ d.ids ∧ d.OffText n
  kept := Stays Q
  failed _ _ := True

/-- What is done in a fragment. -/
theorem runs_fillFragment_stays (hdriver : driver.RewritesPlaceholders) (hQ : Q [])
    (hinner : ExpandsKeeping strip driver (fun _ : Unit => spacingKeeping Q) T)
    (h : SpacedWith Q T w.document) (scope : NodeId) :
    RunsKeeping (spacingKeeping Q) (fillFragment driver (Block.expandAll strip driver T 0) select verbatim scope) w := by
  unfold fillFragment
  split
  · refine (runs_substitute_stays hdriver hQ h.wellFormed h.each scope).bind fun _ w₁ h₁ => ?_
    exact (hinner () select scope verbatim w₁ (h.stays h₁)).mono (fun _ _ h₂ => h₁.trans h₂) fun _ _ h => h
  · exact hinner () select scope verbatim w h

/-- An instance of the content of a block. -/
theorem runs_instantiate_spaced (hdriver : driver.RewritesPlaceholders) (hQ : Q [])
    (hinner : ExpandsKeeping strip driver (fun _ : Unit => spacingKeeping Q) T)
    (h : SpacedWith Q (tree t T) w.document) :
    Runs (Block.instantiate driver (Block.expandAll strip driver T 0) t verbatim select) w
      (fun _ w' => Tracks (Spacing Q) w.document w'.document) fun _ _ => True := by
  obtain ⟨wf, he, hdetached⟩ := h
  obtain ⟨-, hT, -⟩ := detached_cons.mp hdetached
  have hcontent : ∀ c ∈ t.content, c ∈ w.document.ids := fun c hc =>
    (hdetached t (by simp [tree, toList]) c hc).1
  have hmade : Tracks (Spacing Q) w.document (w.document.createElement Word.fragment).2 :=
    (Tracks.refl wf he).create_spaced rfl rfl
  have hfragment : (w.document.createElement Word.fragment).2.Bears w.document.freshId :=
    bears_of_isNamed (isNamed_freshId wf Word.fragment) (by decide)
  have hcontent₁ : ∀ c ∈ t.content, c ∈ (w.document.createElement Word.fragment).2.ids := fun c hc =>
    hmade.gains.grows.mem_ids c (hcontent c hc)
  have hcopied := (Tracks.refl hmade.wellFormed hmade.each).appendCopies_spaced hfragment hcontent₁
  -- What is put together there leaves everything else alone.
  have hall := Closed.all wf
  have hleaves₁ := hall.leaves_create wf (.element ⟨Word.fragment, []⟩)
  have hleaves := hleaves₁.trans ((hall.of_leaves wf hleaves₁).leaves_appendCopies hmade.wellFormed
    (hmade.wellFormed.mem_ids_of_name? hfragment.name?_ne_none) (fun hmem => Nat.lt_irrefl _ (wf.lt_fresh _ hmem))
    hcontent₁)
  rw [instantiate_eq]
  refine Runs.bind (Q := fun n w₁ => n = w.document.freshId ∧
    w₁.document = (w.document.createElement Word.fragment).2) (runs_changeGet ⟨rfl, rfl⟩) ?_
  rintro n w₁ ⟨rfl, hd₁⟩
  refine Runs.bind (Q := fun _ w₂ => w₂.document =
    (w.document.createElement Word.fragment).2.appendCopies w.document.freshId t.content)
    (runs_change (by rw [hd₁])) ?_
  rintro - w₂ hd₂
  have hcopied : Tracks (Spacing Q) (w.document.createElement Word.fragment).2 w₂.document := hd₂ ▸ hcopied
  have hT₂ : Detached w₂.document T := hT.of_leaves (hd₂ ▸ hleaves)
  refine (runs_fillFragment_stays hdriver hQ hinner ⟨hcopied.wellFormed, hcopied.each, hT₂⟩
    w.document.freshId).bind fun _ w₃ h₃ => ?_
  have hfilled := hcopied.trans h₃.tracks
  refine runs_changeGet (hmade.trans (hfilled.takeChildren_of_imp fun node cs htree _ => ?_))
  exact (hfragment.of_gains hmade.wellFormed hfilled.gains).indifferent node cs htree []

/-- Each of its changes does. -/
theorem course_spaced (strip : Bool) (hdriver : driver.RewritesPlaceholders) (hQ : Q []) :
    Course strip driver (fun _ : Unit => spacingKeeping Q) where
  refl h := .refl h.wellFormed h.each
  trans h h' := h.trans h'
  failed _ := trivial
  trans_failed _ _ := trivial
  ready_cons := by
    rintro - scope t T rest d ⟨wf, he, hT⟩
    obtain ⟨hone, -, hrest⟩ := detached_cons.mp hT
    exact ⟨⟨wf, he, hone⟩, wf, he, hrest⟩
  ready_kept h h' := h.stays h'
  cursor_kept := by
    rintro - scope T d d' n ⟨wf, -, -⟩ ⟨hn, hoff⟩ h'
    exact ⟨h'.tracks.gains.grows.mem_ids n hn, hoff.of_gains wf h'.tracks.gains (h'.keeps.parent?_eq n hn)⟩
  anchor := by
    rintro - scope T d n t ⟨wf, he, -⟩ hresolve
    obtain ⟨node, hfind, rfl⟩ := Option.map_eq_some_iff.mp hresolve
    have hnode := List.mem_of_find?_eq_some hfind
    have hon := List.find?_some hfind
    rw [InsertionPoint.isOn, beq_iff_eq] at hon
    refine ⟨wf.mem_ids_of_mem_treeAt (List.mem_map_of_mem hnode), wf.offText_of_element he ?_⟩
    refine name?_ne_none_of_attribute? (show d.attribute? node.id Word.insertionAttribute ≠ none from ?_)
    rw [attribute?, wf.label?_of_mem_treeAt hnode, Option.bind_some, hon]
    exact Option.some_ne_none _
  insert := by
    rintro - scope t T select verbatim n w h ⟨hn, hoff⟩ hinner
    have wf : w.document.WellFormed := h.wellFormed
    have hnew := runs_instantiate_new strip verbatim select hdriver.staysBelow h.detached wf
    refine (hnew.and (runs_instantiate_spaced hdriver hQ hinner h)).mono ?_ fun _ _ h => h
    rintro ns w' ⟨⟨hleaves, hparts⟩, htracks⟩
    obtain ⟨hkeeps, hbeside⟩ := insertParts_grid (Z := fun _ => False) (grid_false wf) hleaves hparts
      ⟨hn, fun _ h => h.elim⟩
    obtain ⟨f, rfl, hparted, hnot⟩ := hparts
    obtain ⟨hput, hlast⟩ := htracks.insertAllAfter_spaced (hleaves.grows.mem_ids n hn)
      (hoff.of_gains wf htracks.gains (.inl (hleaves.unchanged n hn).parent?_eq)) hparted
      (fun hmem => hnot n hmem hn) hnot
    exact ⟨⟨hput, hkeeps⟩, hbeside.mem_ids, hlast⟩
  keyword := by
    rintro - scope T d n keyword label ⟨wf, he, -⟩ ⟨hn, hoff⟩ hlabel
    obtain ⟨hname, -⟩ := of_keywordLabel? hlabel
    have htext : label.isNamed Word.text = false := by
      rw [Label.isNamed, beq_iff_eq] at hname
      rw [Label.isNamed, hname]
      decide
    exact ⟨((Tracks.refl wf he).insertElement_spaced hn hoff (Label.WellMarked.isElement_of_isNamed hname) htext
      fun _ _ => .inr rfl).1, (grid_false wf).keyword hn hlabel⟩
  removeAnchor := by
    rintro - scope T d n ⟨wf, he, -⟩ ⟨hn, hoff⟩
    refine ⟨?_, (grid_false wf).refl.removeAnchor ⟨hn, fun _ h => h.elim⟩ strip⟩
    have hout := (Tracks.refl wf he).detach_of_movable hoff.movable
    unfold Block.removeAnchor
    dsimp only
    split
    · next paragraph hparagraph =>
      split
      · rw [detachEmptyParagraph]
        split
        · have hnamed : d.isNamed paragraph Word.paragraph = true := by simpa using List.find?_some hparagraph
          exact hout.detach_spaced (hout.gains.name?_ne_none wf (name?_ne_none_of_isNamed hnamed))
        · exact hout
      · exact hout
    · exact hout

/-- Expanding blocks, whatever anchors there are. -/
theorem runs_expandAll_spaced (hdriver : driver.RewritesPlaceholders) (hQ : Q []) (h : SpacedWith Q T w.document)
    (k : Nat) :
    Runs (Block.expandAll strip driver T k select scope verbatim) w
      (fun _ w' => Tracks (Spacing Q) w.document w'.document) fun _ _ => True :=
  ((course_spaced strip hdriver hQ).runs_expandAll (i := ()) h k).mono (fun _ _ h' => h'.tracks)
    fun _ _ h' => h'

end Expand

end WordTemplate
