import WordTemplate.Proofs.Block.Boundary
import WordTemplate.Proofs.Block.Confined
import WordTemplate.Proofs.Xml.Navigation
import WordTemplate.Proofs.Xml.Retouching

/-!
# Blocks within paragraphs of a table

The plots of a table are the uppermost paragraphs below it. A block that starts and stops in one plot is
placed there, and its content is taken out of there. So nothing of what is above the plots changes, and no
label comes into a plot that was not there, but for those of the insertion points of the block.

What is below a plot can be divided and taken out. So it is noted for every node in which plot it was, or is
made: `Plotted`.

* `Plotted.of_confined`: a change in one plot.
* `placeAll_plots`, `extractAll_plots`: placing such blocks and taking out their contents.
* `plotted_plotOf?`: the plots in the beginning.
-/

namespace WordTemplate

open Xml Forest Xml.Document

variable {d d' d'' : Document} {n m p q t c place start stop first last above T : NodeId} {F : Fence}
  {K : Label → Prop}

/-! ## Where labels come from -/

namespace Xml.Document

/-- Whether of every label that came in, `K` holds. -/
def AddsLabels (K : Label → Prop) (d d' : Document) : Prop :=
  ∀ n l, d'.label? n = some l → d.label? n = some l ∨ K l

theorem AddsLabels.trans (h : AddsLabels K d d') (h' : AddsLabels K d' d'') : AddsLabels K d d'' := fun n _ hl =>
  (h' n _ hl).elim (h n _) .inr

theorem addsLabels_of_label?_eq (h : ∀ n, d'.label? n = d.label? n) : AddsLabels K d d' := fun n _ hl =>
  .inl ((h n).symm.trans hl)

theorem WellFormed.addsLabels_create (wf : d.WellFormed) {label : Label} (hK : K label) :
    AddsLabels K d (d.create label).2 := by
  intro n l hl
  by_cases hn : n ∈ d.ids
  · exact .inl ((wf.label?_addCopies _ hn).symm.trans hl)
  · obtain rfl : l = label := by
      have hmem : l ∈ (tree label nil).toList := wf.mem_of_label?_addCopies hn hl
      simpa [tree, toList] using hmem
    exact .inr hK

theorem WellFormed.addsLabels_insertBeside (wf : d.WellFormed) (hr : d.Receives n t)
    {j : Forest Node → Forest Node → Forest Node} (hput : ∀ f g, j f g = f ++ g ∨ j f g = g ++ f) :
    AddsLabels K d (d.insertBeside j t n) := by
  cases hp : d.parent? t with
  | none =>
    rw [insertBeside, hp]
    exact addsLabels_of_label?_eq fun _ => rfl
  | some p => exact addsLabels_of_label?_eq (wf.moves_insertBeside hr (by rw [hp]; rfl) hput).label?_eq

/-- A new node is put beside another one. -/
theorem WellFormed.addsLabels_insertNew (wf : d.WellFormed) {label : Label} (hK : K label) (ht : t ∈ d.ids)
    {j : Forest Node → Forest Node → Forest Node} (hput : ∀ f g, j f g = f ++ g ∨ j f g = g ++ f) :
    AddsLabels K d ((d.create label).2.insertBeside j t d.freshId) ∧
      d.Grows ((d.create label).2.insertBeside j t d.freshId) := by
  have hmakes := makes_addCopies wf label .nil
  have hr := hmakes.receives wf ht
  have wf₁ := hmakes.extends_eq.grows.wellFormed
  exact ⟨(wf.addsLabels_create hK).trans (wf₁.addsLabels_insertBeside hr hput),
    hmakes.extends_eq.grows.trans (wf₁.grows_beside hr hput)⟩

theorem WellFormed.addsLabels_append (wf : d.WellFormed) (hr : d.Receives n t) : AddsLabels K d (d.append t n) :=
  addsLabels_of_label?_eq (Moves.label?_eq_of_grows wf (wf.grows_append hr) (by rw [wf.append_eq hr, remake_fresh])
    fun _ hm => wf.label?_append hr hm)

theorem WellFormed.addsLabels_settle (wf : d.WellFormed) {δ : Division} {f : Forest Node} (hc : c ∈ d.ids)
    (hle : d.fresh ≤ δ.fresh)
    (hperm : (Xml.ids (f ++ δ.dropped)).Perm
      (Xml.ids (d.treeAt c) ++ (List.range' d.fresh (δ.fresh - d.fresh)).map NodeId.mk))
    (hK : Labelled K (f ++ δ.dropped)) : AddsLabels K d (d.settle c δ f) := by
  obtain ⟨a, as, rfl, ha⟩ := wf.exists_treeAt hc
  obtain ⟨hgrows, -⟩ := wf.settle_spec ha hle (ha ▸ hperm)
  have hK := each_iff_forall.mp hK
  intro n l hl
  obtain ⟨node, hnode, rfl⟩ := List.mem_map.mp (hgrows.wellFormed.mem_ids_of_label? hl)
  obtain rfl : node.label = l := Option.some.inj ((hgrows.wellFormed.label?_of_mem hnode).symm.trans hl)
  have hnode : node ∈ (δ.dropped ++ d.trees.replace (·.id == a.id) fun _ _ => f).toList := hnode
  rw [toList_append, List.mem_append] at hnode
  rw [toList_append, List.forall_mem_append] at hK
  rcases hnode with hnode | hnode
  · exact .inr (hK.2 node hnode)
  · rcases mem_toList_replace hnode with hnode | hnode
    · exact .inl (wf.label?_of_mem hnode)
    · exact .inr (hK.1 node hnode)

/-- The parts of a divided element have the labels of what they were made from. -/
theorem WellFormed.addsLabels_divideAfter (wf : d.WellFormed) (hc : c ∈ d.ids)
    (hK : ∀ l ∈ (d.labelsAt c).toList, K l) (place : NodeId) : AddsLabels K d (d.divideAfter c place).2 := by
  obtain ⟨a, as, rfl, ha⟩ := wf.exists_treeAt hc
  obtain ⟨-, heq⟩ | ⟨δ, -, rfl, -, hmoved, heq⟩ := wf.divideAfter_cases ha place
  · rw [heq]
    exact addsLabels_of_label?_eq fun _ => rfl
  · have hδ := conserves_after place d.fresh (tree a as)
    have hlabels := labelled_after place d.fresh (labelled_iff.mpr hK : Labelled K (d.treeAt a.id))
    rw [ha] at hlabels
    generalize Division.after place d.fresh (tree a as) = δ at hδ hmoved hlabels heq
    rw [hmoved, append_nil] at hδ
    rw [heq]
    exact wf.addsLabels_settle hc hδ.fresh_le (by rw [append_assoc, ha]; exact hδ.perm)
      (by rwa [hmoved, nil_append, ← append_assoc] at hlabels)

theorem WellFormed.addsLabels_divideBefore (wf : d.WellFormed) (hc : c ∈ d.ids)
    (hK : ∀ l ∈ (d.labelsAt c).toList, K l) (place : NodeId) : AddsLabels K d (d.divideBefore c place).2 := by
  obtain ⟨a, as, rfl, ha⟩ := wf.exists_treeAt hc
  obtain ⟨-, heq⟩ | ⟨δ, -, rfl, -, hmoved, heq⟩ := wf.divideBefore_cases ha place
  · rw [heq]
    exact addsLabels_of_label?_eq fun _ => rfl
  · have hδ := conserves_before place d.fresh (tree a as)
    have hlabels := labelled_before place d.fresh (labelled_iff.mpr hK : Labelled K (d.treeAt a.id))
    rw [ha] at hlabels
    generalize Division.before place d.fresh (tree a as) = δ at hδ hmoved hlabels heq
    rw [hmoved, nil_append, ← ha] at hδ
    rw [heq]
    refine wf.addsLabels_settle hc hδ.fresh_le (List.Perm.trans ?_ hδ.perm) ?_
    · simp only [ids_append, ← List.append_assoc]
      exact List.perm_append_comm.append_right _
    · simp only [each_append] at hlabels ⊢
      exact ⟨⟨hlabels.2.1, hlabels.1⟩, hlabels.2.2.2⟩

end Xml.Document

namespace Block

/-- Whether `K` holds of the labels that are made for the bounds of blocks, other than the first bound of the block
with the number 0. -/
structure AllowsBounds (K : Label → Prop) : Prop where
  paragraph : K (.element ⟨Word.paragraph, []⟩)
  row : K (.element ⟨Word.row, []⟩)
  first : ∀ (l : Label) kind number, number ≠ 0 →
    K (l.setAttribute Word.insertionAttribute (startPoint kind number).id)
  last : ∀ (l : Label) kind number, K (l.setAttribute Word.insertionAttribute (endPoint kind number).id)

theorem surroundRows_addsLabels (wf : d.WellFormed) (hK : AllowsBounds K) (hfirst : first ∈ d.ids)
    (hlast : last ∈ d.ids) : AddsLabels K d (surroundRows d first last).2 := by
  obtain ⟨hbefore, hgrows⟩ := wf.addsLabels_insertNew hK.row hfirst (j := fun moved sibling => moved ++ sibling)
    fun _ _ => .inl rfl
  obtain ⟨hafter, -⟩ := hgrows.wellFormed.addsLabels_insertNew hK.row (hgrows.mem_ids last hlast)
    (j := fun moved sibling => sibling ++ moved) fun _ _ => .inr rfl
  exact hbefore.trans hafter

theorem insertAnchor_addsLabels (h : Fenced F d) (hK : AllowsBounds K) (habove : above ∈ d.ids)
    {parts : List NodeId} (hparts : ∀ n ∈ parts, Enclosed F d n) (endsElsewhere : Bool) :
    AddsLabels K d (insertAnchor d above parts endsElsewhere).2 := by
  have wf := h.wellFormed
  have hmade := wf.addsLabels_create hK.paragraph
  have hmakes := makes_addCopies wf (.element ⟨Word.paragraph, []⟩) .nil
  have hbefore : ∀ next ∈ d.ids, AddsLabels K d ((d.createElement Word.paragraph).2.insertBefore next d.freshId) :=
    fun next hnext => (wf.addsLabels_insertNew hK.paragraph hnext (j := fun moved sibling => moved ++ sibling)
      fun _ _ => .inl rfl).1
  unfold insertAnchor
  dsimp only
  split
  · next single =>
    split
    · next next hnext =>
      refine hbefore next ?_
      have hmem := List.mem_of_find?_eq_some hnext
      rw [followingSiblings] at hmem
      split at hmem
      · replace hmem := List.mem_of_mem_drop hmem
        have hsingle := hparts single (List.mem_singleton_self _)
        rw [show (d.createElement Word.paragraph).2 = d.addCopies _ from rfl,
          wf.siblings_addCopies _ hsingle.mem_ids] at hmem
        exact (h.of_mem_siblings hmem hsingle.not_outside).1.mem_ids
      · cases hmem
    · exact hmade.trans (hmakes.extends_eq.grows.wellFormed.addsLabels_append (hmakes.receives wf habove))
  · split
    · next tail htail => exact hbefore tail (hparts tail (List.mem_of_getLast? htail)).mem_ids
    · exact hmade

/-- Whether `K` holds of the labels on this side of the fence, apart from that of the root. -/
def Labels (F : Fence) (K : Label → Prop) (d : Document) : Prop :=
  ∀ n l, d.label? n = some l → ¬ F.outside n → n ≠ F.root → K l

theorem Labels.addsLabels (hK : Labels F K d) (h : AddsLabels K d d') : Labels F K d' := fun n l hl hn hne =>
  (h n l hl).elim (fun hl => hK n l hl hn hne) id

theorem Labels.labelsAt (hK : Labels F K d) (h : Fenced F d) (hc : Enclosed F d c) (hne : c ≠ F.root) :
    ∀ l ∈ (d.labelsAt c).toList, K l := by
  intro l hl
  obtain ⟨node, hnode, rfl⟩ := mem_labels_iff.mp hl
  have hmem : node.id ∈ Xml.ids (d.treeAt c) := List.mem_map_of_mem hnode
  refine hK node.id _ (h.wellFormed.label?_of_mem_treeAt hnode) (h.not_of_mem_treeAt hc.not_outside hmem) ?_
  exact fun he => h.not_mem_treeAt hc.not_outside hne (he ▸ hmem)

/-- The labels that come in when a block is placed are those of its bounds, and copies. -/
theorem place?_addsLabels (h : Fenced F d) (hK : AllowsBounds K) (hlabels : Labels F K d) (hstart : Enclosed F d start)
    (hstop : Enclosed F d stop) (hplace : place? d start stop = some ((first, last), d')) : AddsLabels K d d' := by
  have wf := h.wellFormed
  rw [place?] at hplace
  simp only [Option.bind_eq_bind, Option.bind_eq_some_iff] at hplace
  obtain ⟨above, habove, hplace⟩ := hplace
  have hside := h.of_commonAncestor? hstart.not_outside hstop.not_outside habove
  split at hplace
  · obtain ⟨q, hq, hplace⟩ := Option.bind_eq_some_iff.mp hplace
    have hin : above ∈ d.ids := wf.mem_ids_of_parent? (by rw [hq]; rfl)
    have hrows := surroundRows_addsLabels wf hK hin hin
    rwa [show surroundRows d above above = ((first, last), d') by simpa using hplace] at hrows
  -- The children that the ends are in are on this side of the fence, and not the scope.
  have hchild : ∀ {n c}, d.childToward? above n = some c → Enclosed F d c ∧ c ≠ F.root := by
    intro n c hc
    have hc : d.parent? c = some above := by simpa using List.find?_some hc
    have hmem := wf.parent?_eq_some_iff.mp hc
    have hnot := h.not_of_child hmem hside
    exact ⟨⟨wf.mem_ids_of_mem_children hmem, hnot⟩, h.ne_root hmem hnot⟩
  obtain ⟨startChild, hstartChild, hplace⟩ := Option.bind_eq_some_iff.mp hplace
  obtain ⟨stopChild, hstopChild, hplace⟩ := Option.bind_eq_some_iff.mp hplace
  have habove : above ∈ d.ids := by
    have hc : d.parent? startChild = some above := by simpa using List.find?_some hstartChild
    exact wf.mem_ids_of_children (wf.parent?_eq_some_iff.mp hc)
  obtain ⟨hstartIn, hstartNe⟩ := hchild hstartChild
  obtain ⟨hstopIn, hstopNe⟩ := hchild hstopChild
  split at hplace
  · have hrows := surroundRows_addsLabels wf hK hstartIn.mem_ids hstopIn.mem_ids
    rwa [show surroundRows d startChild stopChild = ((first, last), d') by simpa using hplace] at hrows
  obtain ⟨hdivide, hparts⟩ := h.divideAfter hstartIn hstartNe start
  have hdivided := wf.addsLabels_divideAfter hstartIn.mem_ids (hlabels.labelsAt h hstartIn hstartNe) start
  generalize d.divideAfter startChild start = divided at hdivide hparts hdivided hplace
  obtain ⟨parts, divided⟩ := divided
  dsimp only at hdivide hparts hdivided hplace
  obtain ⟨hanchor, -⟩ := insertAnchor_confined hdivide.fenced (hdivide.grows.mem_ids _ habove)
    hside hparts (startChild != stopChild)
  have hanchored := hdivided.trans (insertAnchor_addsLabels hdivide.fenced hK (hdivide.grows.mem_ids _ habove)
    hparts (startChild != stopChild))
  replace hanchor := hdivide.trans hanchor
  generalize insertAnchor divided above parts (startChild != stopChild) = anchored
    at hanchor hanchored hplace
  obtain ⟨anchor, anchored⟩ := anchored
  dsimp only at hanchor hanchored hplace
  split at hplace
  · cases hplace
    exact hanchored
  · cases hplace
    exact hanchored.trans (hanchor.fenced.wellFormed.addsLabels_divideBefore (hanchor.enclosed hstopIn).mem_ids
      ((hlabels.addsLabels hanchored).labelsAt hanchor.fenced (hanchor.enclosed hstopIn) hstopNe) stop)

theorem addsLabels_setAttribute (wf : d.WellFormed) {key value : String}
    (hK : ∀ l : Label, K (l.setAttribute key value)) : AddsLabels K d (d.setAttribute n key value) := by
  intro m l hl
  by_cases hm : m = n
  · subst hm
    rw [Document.setAttribute, wf.label?_relabel_self, Option.map_eq_some_iff] at hl
    obtain ⟨l', -, rfl⟩ := hl
    exact .inr (hK l')
  · rw [Document.setAttribute, wf.label?_relabel_ne hm] at hl
    exact .inl hl

theorem placeOne_addsLabels {number : Nat} {b : Block} {p : Placed} (h : Fenced F d) (hK : AllowsBounds K)
    (hlabels : Labels F K d) (hstart : Enclosed F d b.start.node) (hstop : Enclosed F d b.stop.node)
    (hnumber : number ≠ 0) (hrun : placeOne number b d = .ok p d') : AddsLabels K d d' := by
  rw [placeOne_eq_match] at hrun
  split at hrun
  · cases hrun
  · next first last d₁ hplace =>
    cases hrun
    have wf₁ := (place?_confined h hstart hstop hplace).1.grows.wellFormed
    exact (place?_addsLabels h hK hlabels hstart hstop hplace).trans <|
      (addsLabels_setAttribute wf₁ fun l => hK.first l b.kind number hnumber).trans <|
        addsLabels_setAttribute (wf₁.grows_relabel _ _).wellFormed fun l => hK.last l b.kind number

end Block

/-! ## Plots -/

section Plots

variable {X : NodeId → Prop} {o o' o'' : NodeId → Option NodeId}

/-- Whether `o` says in which plot each node is, `X` being the plots. The nodes in them have labels with `K`. -/
structure Plotted (K : Label → Prop) (X : NodeId → Prop) (o : NodeId → Option NodeId) (d : Document) : Prop where
  wellFormed : d.WellFormed
  plot : ∀ q, X q → q ∈ d.ids ∧ d.isNamed q Word.paragraph = true ∧ o q = none
  of_eq_some : ∀ n q, o n = some q → X q ∧ n ∈ d.ids
  of_plot : ∀ p n, n ∈ d.children p → X p → o n = some p
  of_child : ∀ p n, n ∈ d.children p → ¬ X p → o n = o p
  labels : ∀ n q l, o n = some q → d.label? n = some l → K l

/-- Whether between `d` and `d'` nothing changed but in plots. What came in is in a plot, and what is in which
plot `o'` says then. -/
structure InPlots (X : NodeId → Prop) (o : NodeId → Option NodeId) (d : Document) (o' : NodeId → Option NodeId)
    (d' : Document) : Prop where
  grows : d.Grows d'
  owner_eq : ∀ n ∈ d.ids, o' n = o n
  owner_ne : ∀ n ∈ d'.ids, n ∉ d.ids → o' n ≠ none
  label?_eq : ∀ n ∈ d.ids, o n = none → d'.label? n = d.label? n
  unchanged : ∀ n ∈ d.ids, o n = none → ¬ X n → d.Unchanged d' n

theorem InPlots.refl (wf : d.WellFormed) : InPlots X o d o d where
  grows := .refl wf
  owner_eq _ _ := rfl
  owner_ne _ hn hnot := absurd hn hnot
  label?_eq _ _ _ := rfl
  unchanged n _ _ _ := .refl d n

theorem InPlots.trans (h : InPlots X o d o' d') (h' : InPlots X o' d' o'' d'') : InPlots X o d o'' d'' where
  grows := h.grows.trans h'.grows
  owner_eq n hn := (h'.owner_eq n (h.grows.mem_ids n hn)).trans (h.owner_eq n hn)
  owner_ne n hn hnot := by
    by_cases hmem : n ∈ d'.ids
    · rw [h'.owner_eq n hmem]
      exact h.owner_ne n hmem hnot
    · exact h'.owner_ne n hn hmem
  label?_eq n hn ho := (h'.label?_eq n (h.grows.mem_ids n hn) ((h.owner_eq n hn).trans ho)).trans
    (h.label?_eq n hn ho)
  unchanged n hn ho hX := (h.unchanged n hn ho hX).trans
    (h'.unchanged n (h.grows.mem_ids n hn) ((h.owner_eq n hn).trans ho) hX)

/-- The fence around the plot `q`. All that is not in the plot is on the other side. -/
def plotFence (d : Document) (o : NodeId → Option NodeId) (q : NodeId) : Fence :=
  ⟨q, fun n => n ∈ d.ids ∧ o n ≠ some q, True, fun _ => True, fun _ => True⟩

namespace Plotted

theorem fenced (h : Plotted K X o d) (hq : X q) : Fenced (plotFence d o q) d where
  wellFormed := h.wellFormed
  mem_ids _ hn := hn.1
  root_mem := (h.plot q hq).1
  iff_of_mem_children p n hne hn := by
    refine and_congr (iff_of_true (h.wellFormed.mem_ids_of_children hn) (h.wellFormed.mem_ids_of_mem_children hn))
      (not_congr ?_)
    by_cases hp : X p
    · rw [h.of_plot p n hn hp, (h.plot p hp).2.2]
      exact iff_of_false nofun fun he => hne (Option.some.inj he)
    · rw [h.of_child p n hn hp]
  not_of_mem_children n hn ho := ho.2 (h.of_plot q n hn hq)
  of_mem_children _ _ := ⟨(h.plot q hq).1, fun he => by cases (h.plot q hq).2.2.symm.trans he⟩
  not_named _ name hname := by
    refine isNamed_eq_false_of_ne (h.plot q hq).2.1 ?_
    rintro rfl
    exact absurd hname (by decide)
  tolerant := ⟨⟨fun _ => trivial, fun _ => trivial, fun _ => trivial⟩,
    ⟨fun _ => trivial, fun _ => trivial, fun _ => trivial⟩, fun _ _ => trivial⟩
  inner _ _ _ _ _ := trivial
  top _ _ _ := trivial

theorem enclosed (h : Plotted K X o d) (hn : o n = some q) : Enclosed (plotFence d o q) d n :=
  ⟨(h.of_eq_some n q hn).2, fun ho => ho.2 hn⟩

theorem fenceLabels (h : Plotted K X o d) : Block.Labels (plotFence d o q) K d := by
  intro n l hl hn _
  have ho : o n = some q := by
    by_contra ho
    exact hn ⟨h.wellFormed.mem_ids_of_label? hl, ho⟩
  exact h.labels n q l ho hl

/-- The plots after a change in the plot `q`. -/
theorem of_confined (h : Plotted K X o d) (hq : X q) (hd : Confined (plotFence d o q) d d') (hK : AddsLabels K d d') :
    ∃ o', Plotted K X o' d' ∧ InPlots X o d o' d' ∧ ∀ n, Enclosed (plotFence d o q) d' n → o' n = some q := by
  have hnone : ∀ p, X p → o p = none := fun p hp => (h.plot p hp).2.2
  let o' := fun n => if n ∈ d.ids then o n else if n ∈ d'.ids then some q else none
  have hold : ∀ n ∈ d.ids, o' n = o n := fun n hn => if_pos hn
  have hnew : ∀ n ∈ d'.ids, n ∉ d.ids → o' n = some q := fun n hn hnot => by
    rw [show o' n = _ from if_neg hnot, if_pos hn]
  -- What is on this side of the fence is in the plot.
  have hin : ∀ n, Enclosed (plotFence d o q) d' n → o' n = some q := by
    intro n hn
    by_cases hmem : n ∈ d.ids
    · rw [hold n hmem]
      by_contra ho
      exact hn.not_outside ⟨hmem, ho⟩
    · exact hnew n hn.mem_ids hmem
  have hout : ∀ n, (plotFence d o q).outside n → n ≠ q → d.Unchanged d' n := hd.unchanged trivial
  have hlabel : ∀ n ∈ d.ids, o n = none → d'.label? n = d.label? n := by
    intro n hn ho
    have hside : (plotFence d o q).outside n := ⟨hn, by rw [ho]; exact nofun⟩
    by_cases he : n = q
    · subst he
      exact hd.label?_eq hside
    · exact (hout n hside he).label?_eq
  refine ⟨o', ⟨hd.grows.wellFormed, fun p hp => ?_, fun n p hn => ?_, fun p n hn hp => ?_, fun p n hn hp => ?_,
    fun n p l hn hl => ?_⟩, ⟨hd.grows, hold, fun n hn hnot => by rw [hnew n hn hnot]; exact nofun, hlabel,
      fun n hn ho hX => hout n ⟨hn, by rw [ho]; exact nofun⟩ fun he => hX (he ▸ hq)⟩, hin⟩
  · obtain ⟨hmem, hnamed, ho⟩ := h.plot p hp
    refine ⟨hd.grows.mem_ids p hmem, ?_, (hold p hmem).trans ho⟩
    rw [isNamed, name?, hlabel p hmem ho]
    exact hnamed
  · by_cases hmem : n ∈ d.ids
    · rw [hold n hmem] at hn
      exact ⟨(h.of_eq_some n p hn).1, hd.grows.mem_ids n hmem⟩
    · by_cases hmem' : n ∈ d'.ids
      · rw [hnew n hmem' hmem] at hn
        cases hn
        exact ⟨hq, hmem'⟩
      · rw [show o' n = _ from if_neg hmem, if_neg hmem'] at hn
        cases hn
  · have hn' := hd.grows.wellFormed.mem_ids_of_mem_children hn
    by_cases he : p = q
    · subst he
      exact hin n ⟨hn', hd.fenced.not_of_mem_children n hn⟩
    · have hmem := (h.plot p hp).1
      rw [(hout p ⟨hmem, by rw [hnone p hp]; exact nofun⟩ he).children_eq] at hn
      exact (hold n (h.wellFormed.mem_ids_of_mem_children hn)).trans (h.of_plot p n hn hp)
  · have hp' := hd.grows.wellFormed.mem_ids_of_children hn
    have he : p ≠ q := fun he => hp (he ▸ hq)
    by_cases hside : (plotFence d o q).outside p
    · rw [(hout p hside he).children_eq] at hn
      rw [hold n (h.wellFormed.mem_ids_of_mem_children hn), hold p hside.1, h.of_child p n hn hp]
    · rw [hin p ⟨hp', hside⟩, hin n ⟨hd.grows.wellFormed.mem_ids_of_mem_children hn, fun ho =>
        hside ((hd.fenced.iff_of_mem_children p n he hn).mpr ho)⟩]
  · rcases hK n l hl with hl | hl
    · rw [hold n (h.wellFormed.mem_ids_of_label? hl)] at hn
      exact h.labels n p l hn hl
    · exact hl

end Plotted

/-! ## Placing in plots -/

namespace Block

open WordTemplate.Block

/-- Whether every block starts and stops in one plot. -/
def StayIn (o : NodeId → Option NodeId) (B : Forest (Nat × Block)) : Prop :=
  ∀ b ∈ B.toList, b.1 ≠ 0 ∧ ∃ q, o b.2.start.node = some q ∧ o b.2.stop.node = some q

theorem stayIn_cons {b : Nat × Block} {inner rest : Forest (Nat × Block)} :
    StayIn o (cons b inner rest) ↔ (b.1 ≠ 0 ∧ ∃ q, o b.2.start.node = some q ∧ o b.2.stop.node = some q) ∧
      StayIn o inner ∧ StayIn o rest := by
  simp only [StayIn, toList, List.forall_mem_cons, List.forall_mem_append]

theorem StayIn.of_inPlots {B : Forest (Nat × Block)} (hB : StayIn o B) (h : Plotted K X o d)
    (hd : InPlots X o d o' d') : StayIn o' B := by
  intro b hb
  obtain ⟨hnumber, q, hstart, hstop⟩ := hB b hb
  exact ⟨hnumber, q, (hd.owner_eq _ (h.of_eq_some _ _ hstart).2).trans hstart,
    (hd.owner_eq _ (h.of_eq_some _ _ hstop).2).trans hstop⟩

theorem placeOne_plots {number : Nat} {b : Block} {p : Placed} (h : Plotted K X o d) (hK : AllowsBounds K)
    (hnumber : number ≠ 0) (hstart : o b.start.node = some q) (hstop : o b.stop.node = some q)
    (hrun : placeOne number b d = .ok p d') :
    ∃ o', Plotted K X o' d' ∧ InPlots X o d o' d' ∧ o' p.first ≠ none := by
  have hq := (h.of_eq_some _ _ hstart).1
  have hadds := placeOne_addsLabels (h.fenced hq) hK h.fenceLabels (h.enclosed hstart) (h.enclosed hstop) hnumber hrun
  obtain ⟨hd, hfirst⟩ := placeOne_confined (h.fenced hq) (h.enclosed hstart) (h.enclosed hstop) hrun
  obtain ⟨o', h', hin, hof⟩ := h.of_confined hq hd hadds
  exact ⟨o', h', hin, by rw [hof _ hfirst]; exact nofun⟩

/-- Placing blocks, each of which starts and stops in one plot. -/
theorem placeAll_plots {B : Forest (Nat × Block)} {P : Forest Placed} (h : Plotted K X o d) (hK : AllowsBounds K)
    (hB : StayIn o B) (hrun : placeAll B d = .ok P d') :
    ∃ o', Plotted K X o' d' ∧ InPlots X o d o' d' ∧ ∀ p ∈ P.toList, o' p.first ≠ none := by
  induction B generalizing d o P d' with
  | nil =>
    cases hrun
    exact ⟨o, h, .refl h.wellFormed, fun p hp => by cases hp⟩
  | cons b inner rest ihi ihr =>
    obtain ⟨⟨hnumber, q, hstart, hstop⟩, hinner, hrest⟩ := stayIn_cons.mp hB
    obtain ⟨p, d₁, I, d₂, R, h₁, h₂, h₃, rfl⟩ := exists_of_placeAll_cons hrun
    obtain ⟨o₁, hone, hin₁, hfirst⟩ := placeOne_plots h hK hnumber hstart hstop h₁
    obtain ⟨o₂, htwo, hin₂, hI⟩ := ihi hone (hinner.of_inPlots h hin₁) h₂
    obtain ⟨o₃, hthree, hin₃, hR⟩ := ihr htwo (hrest.of_inPlots h (hin₁.trans hin₂)) h₃
    refine ⟨o₃, hthree, hin₁.trans (hin₂.trans hin₃), fun r hr => ?_⟩
    have hmem : ∀ {o : NodeId → Option NodeId} {d : Document} {n : NodeId}, Plotted K X o d → o n ≠ none →
        n ∈ d.ids := fun h ho => (h.of_eq_some _ _ (Option.ne_none_iff_exists'.mp ho).choose_spec).2
    have hr : r ∈ p :: (I.toList ++ R.toList) := hr
    rw [List.mem_cons, List.mem_append] at hr
    rcases hr with rfl | hr | hr
    · rw [(hin₂.trans hin₃).owner_eq _ (hmem hone hfirst)]
      exact hfirst
    · rw [hin₃.owner_eq _ (hmem htwo (hI r hr))]
      exact hI r hr
    · exact hR r hr

/-- Taking out the contents of blocks whose anchors are in plots. -/
theorem extractAll_plots {P : Forest Placed} (h : Plotted K X o d) (hP : ∀ p ∈ P.toList, o p.first ≠ none) :
    ∃ o', Plotted K X o' (extractAll P d).2 ∧ InPlots X o d o' (extractAll P d).2 := by
  induction P generalizing d o with
  | nil => exact ⟨o, h, .refl h.wellFormed⟩
  | cons p inner rest ihi ihr =>
    simp only [toList, List.forall_mem_cons, List.forall_mem_append] at hP
    obtain ⟨hp, hi, hr⟩ := hP
    have hmem : ∀ n, o n ≠ none → n ∈ d.ids := fun n ho =>
      (h.of_eq_some _ _ (Option.ne_none_iff_exists'.mp ho).choose_spec).2
    obtain ⟨o₁, h₁, hin₁⟩ := ihi h hi
    obtain ⟨q, hq⟩ := Option.ne_none_iff_exists'.mp hp
    replace hq := (hin₁.owner_eq _ (hmem _ hp)).trans hq
    have hX := (h₁.of_eq_some _ _ hq).1
    have wf₁ := h₁.wellFormed
    have hcontent : ∀ c ∈ (extractAll inner d).2.between p.first p.last,
        ¬ (plotFence (extractAll inner d).2 o₁ q).outside c := fun c hc =>
      ((h₁.fenced hX).of_mem_siblings (mem_siblings_of_mem_between hc) (h₁.enclosed hq).not_outside).1.not_outside
    obtain ⟨o₂, h₂, hin₂, -⟩ := h₁.of_confined hX (detachAll_confined (h₁.fenced hX) hcontent)
      (addsLabels_of_label?_eq (wf₁.moves_detachAll _).label?_eq)
    obtain ⟨o₃, h₃, hin₃⟩ := ihr h₂ fun r hr' => by
      rw [(hin₁.trans hin₂).owner_eq _ (hmem _ (hr r hr'))]
      exact hr r hr'
    exact ⟨o₃, h₃, hin₁.trans (hin₂.trans hin₃)⟩

end Block

/-! ## The plots of a table -/

/-- Whether `q` is a paragraph below the table `T`. -/
def isCandidate (d : Document) (T q : NodeId) : Bool :=
  d.isNamed q Word.paragraph && (d.ancestors q).contains T

/-- The uppermost paragraph below the table `T` that is above `n`. -/
def plotOf? (d : Document) (T n : NodeId) : Option NodeId :=
  (d.ancestors n).reverse.find? (isCandidate d T)

/-- Whether `q` is an uppermost paragraph below the table `T`. -/
def IsPlot (d : Document) (T q : NodeId) : Prop :=
  isCandidate d T q = true ∧ plotOf? d T q = none

theorem plotOf?_of_parent? (wf : d.WellFormed) (hp : d.parent? n = some p) :
    plotOf? d T n = (plotOf? d T p).or (if isCandidate d T p then some p else none) := by
  rw [plotOf?, wf.ancestors_of_parent? hp, List.reverse_cons, List.find?_append, plotOf?]
  congr 1
  rw [List.find?_cons, List.find?_nil]
  cases isCandidate d T p <;> rfl

theorem plotOf?_eq_none (hn : T ∉ d.ancestors n) (wf : d.WellFormed) : plotOf? d T n = none := by
  rw [plotOf?, List.find?_eq_none]
  intro q hq hcandidate
  rw [List.mem_reverse] at hq
  rw [isCandidate, Bool.and_eq_true, List.contains_eq_mem, decide_eq_true_eq] at hcandidate
  exact hn (wf.mem_ancestors_iff_isBelow.mpr ((wf.mem_ancestors_iff_isBelow.mp hq).trans
    (wf.mem_ancestors_iff_isBelow.mp hcandidate.2)))

theorem plotted_plotOf? (wf : d.WellFormed) (hlabels : ∀ n q l, plotOf? d T n = some q → d.label? n = some l → K l) :
    Plotted K (IsPlot d T) (plotOf? d T) d where
  wellFormed := wf
  plot q hq := by
    have hcandidate := hq.1
    rw [isCandidate, Bool.and_eq_true] at hcandidate
    exact ⟨wf.mem_ids_of_isNamed hcandidate.1, hcandidate.1, hq.2⟩
  of_eq_some n q hn := by
    have hcandidate := List.find?_some hn
    obtain ⟨-, as, bs, hsplit, has⟩ := List.find?_eq_some_iff_append.mp hn
    have hsplit : d.ancestors n = bs.reverse ++ q :: as.reverse := by
      rw [← List.reverse_reverse (d.ancestors n), hsplit]
      simp
    refine ⟨⟨hcandidate, ?_⟩, ?_⟩
    · rw [plotOf?, wf.ancestors_of_append hsplit, List.reverse_reverse, List.find?_eq_none]
      exact fun a ha => by simpa using has a ha
    · cases hp : d.parent? n with
      | none =>
        rw [parent?, List.head?_eq_none_iff] at hp
        rw [hp] at hsplit
        simp at hsplit
      | some p => exact wf.mem_ids_of_parent? (by rw [hp]; rfl)
  of_plot p n hn hp := by
    rw [plotOf?_of_parent? wf (wf.parent?_eq_some_iff.mpr hn), hp.2, hp.1]
    rfl
  of_child p n hn hp := by
    rw [plotOf?_of_parent? wf (wf.parent?_eq_some_iff.mpr hn)]
    cases ho : plotOf? d T p with
    | some q => rfl
    | none =>
      rw [Option.none_or, if_neg]
      exact fun hcandidate => hp ⟨hcandidate, ho⟩
  labels := hlabels

/-- What is below one paragraph of the table is in the same plot. -/
theorem plotOf?_of_isBelow (wf : d.WellFormed) {P : NodeId} (hP : d.isNamed P Word.paragraph = true)
    (hT : d.IsBelow P T) (hn : d.IsBelow n P) : plotOf? d T n = some ((plotOf? d T P).getD P) := by
  have hcandidate : isCandidate d T P = true := by
    rw [isCandidate, hP, Bool.true_and, List.contains_eq_mem, decide_eq_true_eq]
    exact wf.mem_ancestors_iff_isBelow.mpr hT
  obtain ⟨as, bs, hsplit⟩ := List.append_of_mem (wf.mem_ancestors_iff_isBelow.mpr hn)
  rw [plotOf?, hsplit, List.reverse_append, List.reverse_cons, ← wf.ancestors_of_append hsplit, List.find?_append,
    List.find?_append, ← plotOf?]
  cases plotOf? d T P with
  | some q => rfl
  | none =>
    rw [List.find?_cons, hcandidate]
    rfl

end Plots

end WordTemplate
