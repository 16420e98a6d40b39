import WordTemplate.Proofs.Block.RowSections
import WordTemplate.Proofs.Processing.Rows

/-!
# Templates with two sections around rows

A document is considered whose directives make one block around rows of a table, with a separator in a row of its
own between the first and the last one. The validation rejects every such document. Without validation a condition
cannot be expanded if its alternative is asked for: the anchor of the second section is not found.

* `SeparatedRows`: the documents.
* `SeparatedRows.exists_sections`: the contents of the block and its sections.
* `SeparatedRows.processAt_eq_error`, `SeparatedRows.processAt_ne_ok`: what processing comes to.
-/

namespace WordTemplate

open Xml Forest Binding Xml.Document

variable {σ : Type} {settings : Settings} {d d' : Document} {root T A φ n : NodeId} {i j k : Nat}
  {kind kind' : Directive.Kind} {o s c : Marker}

/-- The elements of a list from one with `p` to another, with a third one in between. -/
theorem exists_between_between {α : Type} {p : α → Bool} {l : List α} {a b e : α} (ha : (l.filter p)[i]? = some a)
    (hb : (l.filter p)[k]? = some b) (he : (l.filter p)[j]? = some e) (hlt : i < k) (hlt' : k < j) :
    ∃ w u v r, l = w ++ ((u ++ b :: v) ++ r) ∧ u.head? = some a ∧ v.getLast? = some e := by
  obtain ⟨w, m, r, hl, hhead, hlast, -, hm, -⟩ := exists_between ha he (by omega)
  have hmid : (m.filter p)[k - i]? = some b := by
    rw [hm, List.getElem?_drop, List.getElem?_take_of_lt (by omega), ← hb]
    congr 1
    omega
  obtain ⟨u, v, rfl, hu, hv⟩ := exists_of_getElem?_filter hmid
  have hj := (List.getElem?_eq_some_iff.mp he).1
  have hlength : ((u ++ b :: v).filter p).length = j + 1 - i := by
    rw [hm, List.length_drop, List.length_take]
    omega
  refine ⟨w, u, v, r, hl, ?_, ?_⟩
  · cases u with
    | nil =>
      have := congrArg List.length hu
      rw [List.filter_nil, List.length_take, hlength] at this
      simp only [List.length_nil] at this
      omega
    | cons x u => simpa using hhead
  · cases v with
    | nil =>
      have := congrArg List.length hv
      rw [List.filter_nil, List.length_drop, hlength] at this
      simp only [List.length_nil] at this
      omega
    | cons x v => simpa [List.getLast?_cons_cons] using hlast

/-- Whether the directives in `d` make one block with two sections around rows of the table `T`: it starts in the row
number `i`, its separator is in the row number `k`, and it ends in the row number `j`. -/
structure SeparatedRows (settings : Settings) (root : NodeId) (d : Document) (T : NodeId) (i k j : Nat)
    (kind kind' : Directive.Kind) (o s c : Marker) : Prop where
  wellFormed : d.WellFormed
  plain : ∀ l ∈ (labels d.trees).toList, l.attribute? Word.insertionAttribute = none
  table : d.isNamed T Word.table = true
  nest_eq : Block.nest (prepare settings root d).1 = .ok (Block.withSections kind kind' o s c)
  lt : i < k
  lt' : k < j
  rows : ∃ a b e, (d.childrenNamed T Word.row)[i]? = some a ∧ (d.childrenNamed T Word.row)[k]? = some b ∧
    (d.childrenNamed T Word.row)[j]? = some e ∧ (prepare settings root d).2.IsBelow o.node a ∧
    (prepare settings root d).2.IsBelow s.node b ∧ (prepare settings root d).2.IsBelow c.node e

namespace SeparatedRows

variable (h : SeparatedRows settings root d T i k j kind kind' o s c)
include h

/-- The contents of the block and its sections are taken out. -/
theorem exists_sections : ∃ B B' d₂ t t₁ t₂ d₃ A, Stages settings root d B B' d₂ (tree t (cons t₁ nil (tree t₂ nil))) d₃ ∧
    t.block = ⟨kind, o, c⟩ ∧ t₂.block = ⟨kind', s, c⟩ ∧ t₂.number = 2 ∧ Block.SectionsOut d₃ t t₁ t₂ A := by
  have hd := (prepare_retouches settings root h.wellFormed).1
  have wf := hd.grows.wellFormed
  have hT := h.wellFormed.mem_ids_of_isNamed h.table
  obtain ⟨a, b, e, ha, hb, he, hstart, hsep, hstop⟩ := h.rows
  have hrows : (prepare settings root d).2.childrenNamed T Word.row = d.childrenNamed T Word.row :=
    hd.childrenNamed_eq T hT (isNamed_eq_false_of_ne h.table (by decide)) _ (by simp)
  rw [← hrows, childrenNamed] at ha hb he
  obtain ⟨l, u, v, r, hchildren, hhead, hlast⟩ := exists_between_between ha hb he h.lt h.lt'
  have hrow : ∀ {q m}, (((prepare settings root d).2.children T).filter
      ((prepare settings root d).2.isNamed · Word.row))[q]? = some m →
      (prepare settings root d).2.isNamed m Word.row = true := fun hm =>
    (List.mem_filter.mp (List.mem_of_getElem? hm)).2
  obtain ⟨first, last, first₁, last₁, first₂, last₂, d₂, hplace, hoverlaps⟩ :=
    Block.placeAll_sections kind kind' wf ((hd.isNamed_eq hT _).trans h.table) hchildren hhead
      hlast (by simp [hrow ha, hrow hb, hrow he]) hstart hsep hstop fun n =>
        (hd.attribute?_eq n).trans (h.wellFormed.attribute?_eq_none_of_labels h.plain n)
  obtain ⟨t, t₁, t₂, d₃, hextract, hblock, -, hblock₂, hnumber, hout⟩ := hoverlaps.extractAll_eq kind o s c
  exact ⟨_, _, d₂, t, t₁, t₂, d₃, first₂, ⟨h.nest_eq, hplace, hextract⟩, hblock, hblock₂, hnumber, hout⟩

/-- The validation rejects the document, whatever the driver. -/
theorem processAt_eq_error (driver : Driver σ) (w : σ) (hvalidate : settings.validate = true) :
    ∃ d', processAt settings driver root ⟨d, w⟩ =
      .error (.insertionPointMisplaced (Block.startPoint kind' 2).id s.directive.text) ⟨d', w⟩ := by
  obtain ⟨B, B', d₂, t, t₁, t₂, d₃, A, hstages, -, hblock, hnumber, hout⟩ := h.exists_sections
  have hanchor : t₂.anchor = Block.startPoint kind' 2 := by
    rw [Block.Template.anchor, Block.Template.kind, hblock, hnumber]
  have hread := hstages.readBlocks_eq w
  rw [hvalidate, if_pos rfl, hout.validate_eq, hanchor, hblock] at hread
  exact ⟨d₃, by rw [processAt_eq, hread]; rfl⟩

end SeparatedRows

/-! ## Without validation -/

section Fragment

variable {p : InsertionPoint} {R : NodeId → Prop}

/-- Values that are filled in have no insertion points. -/
theorem resolve?_eq_none_of_retouches (wf : d.WellFormed) (hφ : φ ∈ d.ids) (h : p.resolve? d φ = none)
    (hd : d.Retouches R d') : p.resolve? d' φ = none := by
  have wf' := hd.grows.wellFormed
  rw [resolve?_eq_none_iff wf] at h
  rw [resolve?_eq_none_iff wf']
  intro n hn
  rw [hd.attribute?_eq]
  by_cases hmem : n ∈ d.ids
  · refine h n ?_
    by_cases he : n = φ
    · exact he.symm ▸ wf.mem_treeAt_self hφ
    · have hbelow := wf'.mem_descendants_iff_isBelow.mp (wf'.mem_descendants_iff.mpr ⟨hn, he⟩)
      exact (wf.mem_descendants_iff.mp (wf.mem_descendants_iff_isBelow.mpr (hd.isBelow_of wf hmem hbelow))).1
  · rw [wf.attribute?_eq_none hmem]
    exact (Option.some_ne_none _).symm

theorem resolve?_eq_none_detach (wf : d.WellFormed) (h : p.resolve? d φ = none) (n : NodeId) :
    p.resolve? (d.detach n) φ = none := by
  rw [resolve?_eq_none_iff wf] at h
  rw [resolve?_eq_none_iff (wf.grows_detach n).wellFormed]
  intro m hm
  rw [attribute?, (wf.moves_detach n).label?_eq]
  refine h m ?_
  rw [wf.treeAt_detach] at hm
  split at hm
  · next he => exact he ▸ hm
  · exact (ids_prune_sublist _ (wf.nodup_treeAt φ) n).mem hm

theorem resolve?_eq_none_removeAnchor (wf : d.WellFormed) (h : p.resolve? d φ = none) (strip : Bool) (n : NodeId) :
    p.resolve? (Block.removeAnchor strip n d) φ = none := by
  have hout := resolve?_eq_none_detach wf h n
  rcases removeAnchor_eq_or strip n d with he | ⟨q, -, -, he⟩ <;> rw [he]
  · exact hout
  · rcases detachEmptyParagraph_eq_or (d.detach n) q with he | he <;> rw [he]
    · exact hout
    · exact resolve?_eq_none_detach (wf.grows_detach n).wellFormed hout q

/-- Nor have copies of nodes on which, and below which, there is none. -/
theorem Stray.resolve?_copied {ns : List NodeId} (h : Stray d p A) (wf : d.WellFormed) (hns : A ∉ ns)
    (hcopied : Copied d d' φ ns) : p.resolve? d' φ = none := by
  obtain ⟨g, htree, hlabels⟩ := hcopied.labels_eq
  rw [InsertionPoint.resolve?, Option.map_eq_none_iff, List.find?_eq_none, htree]
  intro node hnode hon
  simp only [tree, toList, List.append_nil, List.mem_cons] at hnode
  rcases hnode with rfl | hnode
  · exact absurd hon (by simp [InsertionPoint.isOn, Label.attribute?])
  · -- The node is the copy of one that is below one of `ns`.
    have hmem : node.label ∈ (d.contentLabels ns).toList := by
      rw [← hlabels, labels, toList_map]
      exact List.mem_map_of_mem hnode
    obtain ⟨m, hm, he⟩ := mem_labels_iff.mp hmem
    obtain ⟨n, hn, hm⟩ := mem_toList_treesAt.mp hm
    have hnone := (resolve?_eq_none_iff wf).mp (h.resolve?_eq_none wf fun he => hns (he ▸ hn)) m.id
      (List.mem_map_of_mem hm)
    rw [attribute?, wf.label?_of_mem_treeAt hm, Option.bind_some, he] at hnone
    exact hnone (by simpa [InsertionPoint.isOn] using hon)

end Fragment

section Expand

variable {driver : Driver σ} {t t₁ t₂ : Block.Template} {w : Workspace σ} {strip : Bool} {cursor : NodeId}

/-- A step that does not succeed. -/
abbrev Breaks {α : Type} (m : Step Error σ α) (w : Workspace σ) : Prop :=
  Runs m w (fun _ _ => False) fun _ _ => True

/-- The second section is expanded, but its anchor is not there. -/
theorem breaks_expandAll (wf : w.document.WellFormed) (h : t₂.anchor.resolve? w.document φ = none) :
    Breaks (Block.expandAll strip driver (cons t₁ nil (tree t₂ nil)) 0 (.branch (some 1)) φ false) w := by
  have hfirst : Block.Selection.branch (some 1) 0 t₁.kind = false := rfl
  have hsecond : Block.Selection.branch (some 1) (0 + 1) t₂.kind = true := rfl
  rw [tree, Block.expandAll, Block.expandAll, hfirst, hsecond, if_neg Bool.false_ne_true, if_pos rfl,
    ← expandOneVia_resolveAnchor]
  refine (runs_resolveAnchor wf t₁ φ).bind ?_
  rintro n w₁ ⟨rfl, -⟩
  refine Runs.bind (Q := fun _ w' => t₂.anchor.resolve? w'.document φ = none)
    (runs_change (resolve?_eq_none_removeAnchor wf h strip n)) fun _ w₂ h₂ => ?_
  refine Runs.bind (Q := fun _ _ => False) (Runs.bind (Q := fun _ _ => False) ?_ fun _ _ h' => h'.elim)
    fun _ _ h' => h'.elim
  rw [Runs, resolveAnchor_eq, h₂]
  trivial

variable (hdriver : driver.RewritesPlaceholders) (wf : w.document.WellFormed)
  (hmem : ∀ n ∈ t.content, n ∈ w.document.ids) (hstray : Stray w.document t₂.anchor A) (hA : A ∉ t.content)
include hdriver wf hmem hstray hA

theorem breaks_instantiate : Breaks (Block.instantiate driver
    (Block.expandAll strip driver (cons t₁ nil (tree t₂ nil)) 0) t false (.branch (some 1))) w := by
  obtain ⟨d, x⟩ := w
  have hcopied := copied_fragment wf hmem
  have hnone := hstray.resolve?_copied wf hA hcopied
  have wf₁ := hcopied.leaves.grows.wellFormed
  rw [instantiate_eq]
  refine Runs.bind (Q := fun n w₁ => n = d.freshId ∧ w₁ = ⟨(d.createElement Word.fragment).2, x⟩)
    (runs_changeGet ⟨rfl, rfl⟩) ?_
  rintro n w₁ ⟨rfl, rfl⟩
  refine Runs.bind (Q := fun _ w₂ => w₂.document =
    (d.createElement Word.fragment).2.appendCopies d.freshId t.content) (runs_change rfl) ?_
  rintro - w₂ hd₂
  rw [← hd₂] at hcopied hnone wf₁
  refine Runs.bind (Q := fun _ _ => False) ?_ fun _ _ h' => h'.elim
  rw [fillFragment, Bool.not_false, if_pos rfl]
  refine Runs.bind (Q := fun _ w₃ => w₃.document.WellFormed ∧ t₂.anchor.resolve? w₃.document d.freshId = none)
    (Runs.ask ((hdriver d.freshId w₂).mono (fun _ w₃ h₃ => ?_) fun _ _ _ => trivial)) ?_
  · obtain ⟨_, hns⟩ := h₃
    have hd := hns.retouches wf₁.textsLoose
    exact ⟨hd.grows.wellFormed, resolve?_eq_none_of_retouches wf₁ hcopied.mem_ids hnone hd⟩
  · rintro - w₃ ⟨wf₃, h₃⟩
    exact breaks_expandAll wf₃ h₃

/-- So a condition cannot be expanded if its second section is asked for. -/
theorem breaks_expandOne (hkind : t.kind = .conditionStart)
    (hplan : driver.plan t.block.start.directive w.state = .ok (.branch (some 1)) w.state) (scope : NodeId) :
    Breaks (Block.expandOne strip driver (Block.expandAll strip driver (cons t₁ nil (tree t₂ nil)) 0) t scope false)
      w := by
  rw [← expandOneVia_resolveAnchor]
  refine (runs_resolveAnchor wf t scope).bind ?_
  rintro n w₁ ⟨rfl, -⟩
  have hbody : expandBody driver (Block.expandAll strip driver (cons t₁ nil (tree t₂ nil)) 0) t
      (false || t.kind = .ignoreStart) n = (do
        let plan ← Block.ask (Step.onState (driver.plan t.block.start.directive))
        discard (Block.insertPlanned driver (Block.expandAll strip driver (cons t₁ nil (tree t₂ nil)) 0) t n
          plan)) := by
    simp [expandBody, hkind]
  have hplanned : Runs (Block.ask (Step.onState (driver.plan t.block.start.directive))) w₁
      (fun plan w' => plan = Expansion.branch (some 1) ∧ w' = w₁) fun _ _ => True :=
    Runs.ask (runs_onState (fun plan x hp => by rw [hplan] at hp; cases hp; exact ⟨rfl, rfl⟩) fun _ _ _ => trivial)
  rw [hbody]
  refine Runs.bind (Q := fun _ _ => False) (hplanned.bind ?_) fun _ _ h' => h'.elim
  rintro plan w₂ ⟨rfl, rfl⟩
  exact Runs.discard ((breaks_instantiate hdriver wf hmem hstray hA).bind fun _ _ h' => h'.elim)

end Expand

/-- If the alternative is asked for, processing fails, also without validation. -/
theorem SeparatedRows.processAt_ne_ok {driver : Driver σ} {x : σ}
    (h : SeparatedRows settings root d T i k j .conditionStart kind' o s c) (hdriver : driver.RewritesPlaceholders)
    (hscope : driver.KeepsScope) (hplan : driver.plan o.directive x = .ok (.branch (some 1)) x)
    (w' : Workspace σ) : processAt settings driver root ⟨d, x⟩ ≠ .ok () w' := by
  intro hrun
  obtain ⟨B, B', d₂, t, t₁, t₂, d₃, A, hstages, hblock, -, -, hout⟩ := h.exists_sections
  have hkind : t.kind = .conditionStart := by rw [Block.Template.kind, hblock]
  have hdirective : t.block.start.directive = o.directive := by rw [hblock]
  rw [processAt_eq] at hrun
  split at hrun
  · cases hrun
  next Ts w₀ hread =>
  obtain ⟨_, _, _, _, hstages', rfl, -⟩ := exists_stages hread
  obtain ⟨rfl, rfl⟩ := hstages.unique hstages'
  split at hrun
  · cases hrun
  next w₁ hexpand =>
  have hbreaks : Breaks (expandVia Block.resolveAnchor settings driver root (tree t (cons t₁ nil (tree t₂ nil))))
      ⟨d₃, x⟩ := by
    rw [expandVia, expandAllVia_resolveAnchor]
    refine Runs.bind (Q := fun _ w => w.state = x ∧ d₃.Retouches (fun _ => True) w.document) (Runs.ask
      ((hdriver root ⟨d₃, x⟩).traced.mono (fun _ w hw => ?_) fun _ _ _ => trivial)) ?_
    · obtain ⟨hsub, _, hns⟩ := hw
      exact ⟨hscope.substitute_ok hsub, hns.retouches hout.wellFormed.textsLoose⟩
    rintro - ⟨d₄, x⟩ ⟨rfl, hd⟩
    rw [tree, Block.expandAll, Block.Selection.all, if_pos rfl]
    exact (breaks_expandOne hdriver hd.grows.wellFormed (fun n hn => hd.grows.mem_ids n (hout.mem_ids n hn))
      (hout.stray.retouches hd) hout.not_mem hkind (hdirective ▸ hplan) root).bind fun _ _ h' => h'.elim
  rw [Breaks, Runs, hexpand] at hbreaks
  exact hbreaks

theorem separatedRows_sectionRows : SeparatedRows {} (bodyOf sectionRows) sectionRows ⟨1⟩ 0 1 2 .conditionStart
    .conditionElse (markerAt 6 .conditionStart 0 "{{?e}}" "e") (markerAt 12 .conditionElse 7 "{{:}}" "")
    (markerAt 18 .conditionEnd 13 "{{/}}" "") where
  wellFormed := wellFormed_ofTree ..
  plain := by decide
  table := by decide
  nest_eq := by decide +kernel
  lt := by decide
  lt' := by decide
  rows := by
    have wf := (prepare_retouches (d := sectionRows) {} (bodyOf sectionRows) (wellFormed_ofTree ..)).1.grows.wellFormed
    exact ⟨⟨2⟩, ⟨8⟩, ⟨14⟩, by decide +kernel, by decide +kernel, by decide +kernel,
      wf.mem_ancestors_iff_isBelow.mp (by decide +kernel), wf.mem_ancestors_iff_isBelow.mp (by decide +kernel),
      wf.mem_ancestors_iff_isBelow.mp (by decide +kernel)⟩

end WordTemplate
