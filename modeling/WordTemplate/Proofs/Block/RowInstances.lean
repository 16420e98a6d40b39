import WordTemplate.Proofs.Binding.Session
import WordTemplate.Proofs.Binding.Below
import WordTemplate.Proofs.Block.Grids
import WordTemplate.Proofs.Block.Rows
import WordTemplate.Proofs.Processing.Settled
import WordTemplate.Proofs.Word.Rows

/-!
# Instances of rows

An instance of a block around rows is put together in a fragment. The bounds of the section are copied there,
and between them comes an instance of the section, which has the rows that were taken out of the table. What is
expanded in these rows is beside the grid that they are. So the instance has as many rows as the section, and as
many cells in each of them.

* `ChangesChildren`, `insertParts_children`: an instance is put behind a node.
* `runs_instantiate_rows`: the rows of an instance of the section.
* `runs_instantiate_section`, `runs_instantiate_skip`: an instance of the block, with the section or without it.
-/

namespace WordTemplate

open Xml Forest Binding Xml.Document

variable {σ : Type} {d d' d'' : Document} {n c p T φ : NodeId} {ns ms : List NodeId}

/-! ## Runs -/

section Runs

variable {ε α : Type} {m : Step ε σ α} {w : Workspace σ} {Q Q' : α → Workspace σ → Prop}
  {E E' : ε → Workspace σ → Prop}

/-- What is known of a run, together with the run. -/
theorem Runs.traced (h : Runs m w Q E) : Runs m w (fun a w' => m w = .ok a w' ∧ Q a w') E := by
  unfold Runs at *
  split at h <;> simp_all

end Runs

/-! ## Copies in a fragment -/

theorem Xml.Document.WellFormed.parent?_appendCopies (wf : d.WellFormed) (hφ : φ ∈ d.ids)
    (hnone : d.parent? φ = none) (hns : ∀ n ∈ ns, n ∈ d.ids) : (d.appendCopies φ ns).parent? φ = none := by
  induction ns generalizing d with
  | nil => exact hnone
  | cons n ns ih =>
    obtain ⟨a, as, rfl, htree⟩ := wf.exists_treeAt (hns n (List.mem_cons_self ..))
    have hlabels : d.labelsAt a.id = tree a.label (labels as) := by rw [labelsAt, htree, labels_tree]
    have hmade := wf.grows_addCopies (d.labelsAt a.id)
    have hr : (d.addCopies (d.labelsAt a.id)).Receives d.freshId φ := hlabels ▸ wf.receives_copy a.label _ hφ
    have hgrows := hmade.trans (hmade.wellFormed.grows_append hr)
    have hne : φ ≠ d.freshId := fun he => Nat.lt_irrefl _ (wf.lt_fresh _ (he ▸ hφ))
    rw [Document.appendCopies, List.foldl_cons]
    exact ih hgrows.wellFormed (hgrows.mem_ids φ hφ)
      (hmade.wellFormed.parent?_append (wf.parent?_addCopies hnone hφ _) hr hne)
      fun m hm => hgrows.mem_ids m (hns m (List.mem_cons_of_mem _ hm))

/-- A new fragment with copies of some nodes. -/
structure Copied (d d' : Document) (φ : NodeId) (ns : List NodeId) : Prop where
  leaves : d.Leaves d' (· ∈ d.ids)
  mem_ids : φ ∈ d'.ids
  parent?_eq : d'.parent? φ = none
  label?_eq : d'.label? φ = some (.element ⟨Word.fragment, []⟩)
  outline_eq : (d'.children φ).map d'.outline = ns.map d.outline
  labels_eq : ∃ g, d'.treeAt φ = tree ⟨φ, .element ⟨Word.fragment, []⟩⟩ g ∧ labels g = d.contentLabels ns

theorem copied_fragment (wf : d.WellFormed) (hns : ∀ n ∈ ns, n ∈ d.ids) :
    Copied d ((d.createElement Word.fragment).2.appendCopies d.freshId ns) d.freshId ns := by
  have hall := Closed.all wf
  have hnew : d.freshId ∉ d.ids := fun hmem => Nat.lt_irrefl _ (wf.lt_fresh _ hmem)
  have hmakes : d.Makes (d.createElement Word.fragment).2 d.freshId _ :=
    makes_addCopies wf (.element ⟨Word.fragment, []⟩) .nil
  have hmade := hall.leaves_create wf (.element ⟨Word.fragment, []⟩)
  have hput := (hall.of_leaves wf hmade).leaves_appendCopies hmade.grows.wellFormed hmakes.mem_ids hnew
    fun n hn => hmade.grows.mem_ids n (hns n hn)
  obtain ⟨φ, g, hφ, hlabel, hlabels, -, htree, -⟩ := exists_fragment Word.fragment wf hns
  obtain ⟨i, l⟩ := φ
  obtain rfl : d.freshId = i := hφ
  obtain rfl : l = .element ⟨Word.fragment, []⟩ := hlabel
  have hleaves := hmade.trans hput
  have wf' := hleaves.grows.wellFormed
  refine ⟨hleaves, hput.grows.mem_ids _ hmakes.mem_ids, ?_, (wf'.label?_of_tree htree).1, ?_, g, htree, hlabels⟩
  · exact hmade.grows.wellFormed.parent?_appendCopies hmakes.mem_ids hmakes.parent?_eq
      fun n hn => hmade.grows.mem_ids n (hns n hn)
  · rw [wf.map_outline hns, ← hlabels, children_of_tree htree]
    refine wf'.map_outline_roots fun l a as r he => ?_
    have hspot : Document.treeAt _ d.freshId =
        wrap [⟨nil, ⟨d.freshId, .element ⟨Word.fragment, []⟩⟩, nil⟩] (l ++ cons a as r) := he ▸ htree
    exact wf'.treeAt_of_spot hspot

/-! ## Putting instances in -/

namespace Xml.Document

/-- A tree stays if no node other than `p` is changed, and `p` is not in it. -/
theorem WellFormed.treeAt_eq_of_ne (wf : d.WellFormed) (wf' : d'.WellFormed)
    (h : ∀ m ∈ d.ids, m ≠ p → d'.label? m = d.label? m ∧ d'.children m = d.children m) (hn : n ∈ d.ids)
    (hp : p ∉ Xml.ids (d.treeAt n)) : d'.treeAt n = d.treeAt n :=
  wf.treeAt_congr wf' hn fun m hm => h m (wf.mem_ids_of_mem_treeAt hm) fun he => hp (he ▸ hm)

theorem WellFormed.not_mem_treeAt_of_mem_children (wf : d.WellFormed) (h : n ∈ d.children p) :
    p ∉ Xml.ids (d.treeAt n) := by
  refine wf.not_mem_treeAt (wf.mem_treeAt_of_mem_children h) ?_
  rintro rfl
  exact wf.not_mem_children_self n h

/-- What is taken out of a node stays as it is. -/
theorem WellFormed.treeAt_takeChildren_of_mem (wf : d.WellFormed) (hn : n ∈ d.children φ) :
    (d.takeChildren φ).2.treeAt n = d.treeAt n :=
  wf.treeAt_eq_of_ne (wf.grows_takeChildren φ).wellFormed
    (fun m hm hne => ⟨wf.label?_takeChildren φ hm, by rw [wf.children_takeChildren, if_neg hne]⟩)
    (wf.mem_ids_of_mem_children hn) (wf.not_mem_treeAt_of_mem_children hn)

end Xml.Document

/-- Whether nothing but the children of `p` is changed, and new nodes come in. -/
structure ChangesChildren (p : NodeId) (d d' : Document) : Prop where
  grows : d.Grows d'
  unchanged : ∀ n ∈ d.ids, n ≠ p → d.Unchanged d' n
  label?_eq : ∀ n ∈ d.ids, d'.label? n = d.label? n
  parent?_eq : ∀ n ∈ d.ids, d'.parent? n = d.parent? n

namespace ChangesChildren

theorem refl (wf : d.WellFormed) : ChangesChildren p d d :=
  ⟨.refl wf, fun n _ _ => .refl d n, fun _ _ => rfl, fun _ _ => rfl⟩

theorem trans (h : ChangesChildren p d d') (h' : ChangesChildren p d' d'') : ChangesChildren p d d'' where
  grows := h.grows.trans h'.grows
  unchanged n hn hne := (h.unchanged n hn hne).trans (h'.unchanged n (h.grows.mem_ids n hn) hne)
  label?_eq n hn := (h'.label?_eq n (h.grows.mem_ids n hn)).trans (h.label?_eq n hn)
  parent?_eq n hn := (h'.parent?_eq n (h.grows.mem_ids n hn)).trans (h.parent?_eq n hn)

/-- Other nodes are added. -/
theorem leaves (h : ChangesChildren p d d') (h' : d'.Leaves d'' (· ∈ d'.ids)) : ChangesChildren p d d'' :=
  h.trans ⟨h'.grows, fun n hn _ => h'.unchanged n hn, fun n hn => (h'.unchanged n hn).label?_eq,
    fun n hn => (h'.unchanged n hn).parent?_eq⟩

theorem treeAt_eq (h : ChangesChildren p d d') (wf : d.WellFormed) (hn : n ∈ d.ids) (hp : p ∉ ids (d.treeAt n)) :
    d'.treeAt n = d.treeAt n :=
  wf.treeAt_eq_of_ne h.grows.wellFormed
    (fun m hm hne => ⟨h.label?_eq m hm, (h.unchanged m hm hne).children_eq⟩) hn hp

end ChangesChildren

/-- New trees can be put behind a node that was there before. -/
theorem Logged.Parts.receives (h : Logged.Parts d d' ns) (hd : d.Grows d') (hc : c ∈ d.ids) :
    ns.Nodup ∧ ∀ n ∈ ns, d'.Receives n c := by
  obtain ⟨f, rfl, hparted, hnew⟩ := h
  refine ⟨((roots_sublist f).map Node.id).nodup hparted.nodup, fun n hn => ?_⟩
  obtain ⟨a, ha, rfl⟩ := List.mem_map.mp hn
  obtain ⟨l, as, r, rfl⟩ := exists_of_mem_roots ha
  have htree := hparted.treeAt_eq l a as r rfl
  refine ⟨(hd.wellFormed.mem_ids_of_treeAt htree).1, hparted.parent?_eq l a as r rfl, hd.mem_ids c hc,
    fun hmem => hnew c ?_ hc⟩
  rw [htree] at hmem
  simp at hmem ⊢
  tauto

theorem putAfter_of_nodup {a : NodeId} {l r : List NodeId} (h : (l ++ a :: r).Nodup) :
    putAfter a ns (l ++ a :: r) = l ++ a :: (ns ++ r) := by
  obtain ⟨-, hr, hdis⟩ := List.nodup_append.mp h
  rw [putAfter_append, putAfter_cons, if_pos rfl, putAfter_of_not_mem fun hmem => hdis a hmem a (by simp) rfl,
    putAfter_of_not_mem (List.nodup_cons.mp hr).1]
  rfl

/-- An instance is put behind a child of `p`. -/
theorem insertParts_children {a : NodeId} {l r : List NodeId} (wf : d.WellFormed)
    (hd : d.Leaves d' (· ∈ d.ids)) (hns : Logged.Parts d d' ns) (hc : d.children p = l ++ a :: r) :
    ChangesChildren p d (d'.insertAllAfter a ns).2 ∧
      (d'.insertAllAfter a ns).2.children p = l ++ a :: (ns ++ r) ∧
      ∀ n ∈ ns, (d'.insertAllAfter a ns).2.treeAt n = d'.treeAt n := by
  have ha : a ∈ d.children p := by simp [hc]
  have hp := wf.mem_ids_of_children ha
  have hmem := wf.mem_ids_of_mem_children ha
  have wf' := hd.grows.wellFormed
  have hsame : ∀ n ∈ d.ids, d'.children n = d.children n := fun n hn => (hd.unchanged n hn).children_eq
  have ha' : a ∈ d'.children p := by rwa [hsame p hp]
  have hsome : (d'.parent? a).isSome := by
    rw [wf'.parent?_eq_some_iff.mpr ha']
    rfl
  obtain ⟨hnd, hr⟩ := hns.receives hd.grows hmem
  obtain ⟨hmoves, hput, -⟩ := wf'.insertAllAfter_moves hsome hnd hr
  have hother : ∀ n, n ≠ p → (d'.insertAllAfter a ns).2.children n = d'.children n := fun n hne => by
    rw [hput, putAfter_of_not_mem]
    intro hmem
    exact hne (Option.some.inj ((wf'.parent?_eq_some_iff.mpr hmem).symm.trans (wf'.parent?_eq_some_iff.mpr ha')))
  have hparent : ∀ n ∈ d.ids, (d'.insertAllAfter a ns).2.parent? n = d'.parent? n := fun n hn =>
    wf'.parent?_congr hmoves.grows.wellFormed fun q => by
      rw [hput, mem_putAfter, or_iff_left_iff_imp]
      rintro ⟨-, hmem⟩
      obtain ⟨f, rfl, -, hnew⟩ := hns
      exact absurd hn (hnew n (((roots_sublist f).map Node.id).mem hmem))
  refine ⟨⟨hd.grows.trans hmoves.grows, fun n hn hne => ?_, fun n hn => ?_, fun n hn => ?_⟩, ?_, fun n hn => ?_⟩
  · exact (hd.unchanged n hn).trans ⟨hmoves.label?_eq n, hparent n hn, hother n hne⟩
  · exact (hmoves.label?_eq n).trans (hd.unchanged n hn).label?_eq
  · exact (hparent n hn).trans (hd.unchanged n hn).parent?_eq
  · rw [hput, hsame p hp, hc, putAfter_of_nodup (hc ▸ wf.nodup_children p)]
  · obtain ⟨f, rfl, hparted, hnew⟩ := hns
    obtain ⟨b, hb, rfl⟩ := List.mem_map.mp hn
    obtain ⟨l', bs, r', rfl⟩ := exists_of_mem_roots hb
    have htree := hparted.treeAt_eq l' b bs r' rfl
    refine wf'.treeAt_eq_of_ne hmoves.grows.wellFormed (p := p)
      (fun m _ hne => ⟨hmoves.label?_eq m, hother m hne⟩) (wf'.mem_ids_of_treeAt htree).1 fun hmem => hnew p ?_ hp
    rw [htree] at hmem
    simp at hmem ⊢
    tauto

/-! ## Instances of rows -/

section Instance

variable {driver : Driver σ} {t : Block.Template} {I : Forest Block.Template} {verbatim strip : Bool}
  {select : Block.Selection} {w : Workspace σ}

/-- A fragment and the rows in it. -/
def FragmentRows (d : Document) (φ z : NodeId) : Prop :=
  z = φ ∨ z ∈ d.childrenNamed φ Word.row

theorem Copied.grid (h : Copied d d' φ ns) (hplain : PlainRows d ns) : Grid (FragmentRows d' φ) d' := by
  have wf := h.leaves.grows.wellFormed
  have hrows : PlainRows d' (d'.children φ) := hplain.congr h.outline_eq
  refine ⟨wf, ?_, ?_, ?_⟩
  · rintro z (rfl | hz)
    · exact h.mem_ids
    · exact wf.mem_ids_of_mem_children (mem_childrenNamed.mp hz).1
  · rintro z (rfl | hz)
    · rw [isNamed_eq_any, h.label?_eq]
      decide
    · exact isNamed_eq_false_of_ne (mem_childrenNamed.mp hz).2 (by decide)
  · rintro z (rfl | hz) c hc
    · exact (hrows c hc).1
    · obtain ⟨hmem, hrow⟩ := mem_childrenNamed.mp hz
      exact (hrows z hmem).2 hrow c hc

/-- The rows of a fragment have kept their shapes. -/
theorem KeepsGrid.shapes_eq (h : KeepsGrid (FragmentRows d φ) d d') (hd : Grid (FragmentRows d φ) d) :
    (d'.rowsAmong (d'.children φ)).map d'.rowShape = (d.rowsAmong (d.children φ)).map d.rowShape := by
  have wf := hd.wellFormed
  have hrows : d'.childrenNamed φ Word.row = d.childrenNamed φ Word.row :=
    h.childrenNamed_eq φ (.inl rfl) _ (by simp)
  change (d'.childrenNamed φ Word.row).map _ = (d.childrenNamed φ Word.row).map _
  rw [hrows]
  refine List.map_congr_left fun r hr => ?_
  obtain ⟨hmem, hrow⟩ := mem_childrenNamed.mp hr
  have hcells := h.childrenNamed_eq r (.inr hr) Word.cell (by simp)
  rw [rowShape, rowShape, hcells,
    h.label?_eq r (wf.mem_ids_of_mem_children hmem) fun hoff => by simp [hoff.1] at hrow]
  congr 1
  refine List.map_congr_left fun c hc => ?_
  obtain ⟨hmem, hcell⟩ := mem_childrenNamed.mp hc
  exact h.label?_eq c (wf.mem_ids_of_mem_children hmem) fun hoff => by simp [hoff.2] at hcell

theorem KeepsGrid.plainRows (h : KeepsGrid (FragmentRows d φ) d d') :
    PlainRows d' (d'.children φ) := fun n hn => by
  refine ⟨h.grid.plain φ (.inl rfl) n hn, fun hrow => h.grid.plain n (.inr ?_)⟩
  rw [← h.childrenNamed_eq φ (.inl rfl) _ (by simp)]
  exact mem_childrenNamed.mpr ⟨hn, hrow⟩

/-- What is done in a fragment. -/
theorem runs_fillFragment_grid {Z : NodeId → Prop} (hdriver : driver.RewritesPlaceholders) (h : Grid Z w.document)
    (hT : Detached w.document I) :
    RunsOnGrid Z (fillFragment driver (Block.expandAll strip driver I 0) select verbatim φ) w := by
  unfold fillFragment
  split
  · have hfill : Runs (driver.substitute φ) w (fun _ w' => KeepsGrid Z w.document w'.document)
        fun _ _ => True := (hdriver φ w).mono
      (fun _ _ ⟨_, hns⟩ => h.refl.retouches (hns.retouches h.wellFormed.textsLoose)) fun _ _ _ => trivial
    refine (Runs.ask hfill).bind ?_
    intro _ w₁ h₁
    exact (runs_expandAll_grid hdriver.staysBelow h₁.grid (hT.keeps h₁) 0).mono (fun _ _ h₂ => h₁.trans h₂)
      fun _ _ h₂ => h₂
  · exact runs_expandAll_grid hdriver.staysBelow h hT 0

/-- An instance has the rows of the content. -/
theorem runs_instantiate_rows (strip verbatim : Bool) (select : Block.Selection)
    (hdriver : driver.RewritesPlaceholders) (wf : w.document.WellFormed)
    (hT : Detached w.document (tree t I)) (hplain : PlainRows w.document t.content) :
    Runs (Block.instantiate driver (Block.expandAll strip driver I 0) t verbatim select) w
      (fun ns w' => PlainRows w'.document ns ∧
        (w'.document.rowsAmong ns).map w'.document.rowShape =
          (w.document.rowsAmong t.content).map w.document.rowShape)
      fun _ _ => True := by
  obtain ⟨d, s⟩ := w
  have hcopied := copied_fragment wf fun n hn => (hT t (by simp [tree, toList]) n hn).1
  have hgrid := hcopied.grid hplain
  have hI : Detached ((d.createElement Word.fragment).2.appendCopies d.freshId t.content) I :=
    Detached.of_leaves (fun u hu => hT u (by simp [tree, toList, hu])) hcopied.leaves
  rw [instantiate_eq]
  refine Runs.bind (Q := fun n w₁ => n = d.freshId ∧ w₁ = ⟨(d.createElement Word.fragment).2, s⟩)
    (runs_changeGet ⟨rfl, rfl⟩) ?_
  rintro n w₁ ⟨rfl, rfl⟩
  refine Runs.bind (Q := fun _ w₂ => w₂.document =
    (d.createElement Word.fragment).2.appendCopies d.freshId t.content) (runs_change rfl) ?_
  rintro - w₂ hd₂
  rw [← hd₂] at hcopied hgrid hI
  refine (runs_fillFragment_grid hdriver hgrid hI).bind ?_
  rintro - w₃ h₃
  have wf₃ := h₃.grid.wellFormed
  refine runs_changeGet ?_
  have hout := map_outline_eq wf₃ (wf₃.grows_takeChildren d.freshId).wellFormed
    fun n hn => wf₃.treeAt_takeChildren_of_mem hn
  refine ⟨h₃.plainRows.congr hout, ?_⟩
  exact (map_rowShape_congr hout).trans ((h₃.shapes_eq hgrid).trans (map_rowShape_congr hcopied.outline_eq))

theorem attribute?_ne_none {l : Label} {value : String}
    (h : d.label? n = some (l.setAttribute Word.insertionAttribute value)) (hl : l.isElement = true) :
    d.attribute? n Word.insertionAttribute ≠ none := by
  rw [attribute?, h, Option.bind_some, Label.attribute?_setAttribute_self hl]
  exact Option.some_ne_none _

/-- The bounds of a section, which are the content of a block around rows. -/
structure RowBounds (d : Document) (content : List NodeId) (number : Nat) (first last : NodeId) : Prop where
  content_eq : content = [first, last]
  label?_first : d.label? first = some (Block.anchorLabel Word.row .content number)
  label?_last : d.label? last = some (Block.endLabel .content number)
  children_first : d.children first = []
  children_last : d.children last = []

theorem RowBounds.congr {number : Nat} {first last : NodeId} (h : RowBounds d ns number first last)
    (htrees : ∀ n ∈ ns, d'.treeAt n = d.treeAt n) : RowBounds d' ns number first last := by
  have hfirst := htrees first (by simp [h.content_eq])
  have hlast := htrees last (by simp [h.content_eq])
  exact ⟨h.content_eq, by rw [label?, hfirst]; exact h.label?_first, by rw [label?, hlast]; exact h.label?_last,
    (children_of_treeAt hfirst).trans h.children_first, (children_of_treeAt hlast).trans h.children_last⟩

theorem labels_eq_nil_iff {f : Forest Node} : labels f = nil ↔ f = nil := by
  cases f <;> simp

theorem exists_of_labels_eq_cons {f : Forest Node} {l : Label} {g h : Forest Label} (hf : labels f = cons l g h) :
    ∃ i cs rest, f = cons ⟨i, l⟩ cs rest ∧ labels cs = g ∧ labels rest = h := by
  cases f with
  | nil => cases hf
  | cons a cs rest =>
    rw [labels_cons, cons.injEq] at hf
    obtain ⟨rfl, hcs, hrest⟩ := hf
    exact ⟨a.id, cs, rest, rfl, hcs, hrest⟩

/-- A fragment with copies of the bounds. -/
theorem Copied.exists_bounds {number : Nat} {first last : NodeId} (h : Copied d d' φ ns) (wf : d.WellFormed)
    (hb : RowBounds d ns number first last) : ∃ a e : NodeId,
      d'.treeAt φ = tree ⟨φ, .element ⟨Word.fragment, []⟩⟩
        (cons ⟨a, Block.anchorLabel Word.row .content number⟩ nil
          (tree ⟨e, Block.endLabel .content number⟩ nil)) := by
  have hleaf : ∀ n l, d.label? n = some l → d.children n = [] → labels (d.treeAt n) = tree l nil := by
    intro n l hl hc
    have hmem : n ∈ d.ids := by
      by_contra hn
      rw [wf.label?_eq_none hn] at hl
      cases hl
    obtain ⟨node, cs, -, htree⟩ := wf.exists_treeAt hmem
    rw [children_of_tree htree] at hc
    obtain rfl : cs = nil := by cases cs <;> simp [roots] at hc ⊢
    rw [(wf.label?_of_tree htree).1, Option.some.injEq] at hl
    rw [htree, labels_tree, hl]
    rfl
  obtain ⟨g, htree, hlabels⟩ := h.labels_eq
  rw [hb.content_eq, contentLabels, treesAt_cons, treesAt_cons, labels_append, labels_append,
    hleaf _ _ hb.label?_first hb.children_first, hleaf _ _ hb.label?_last hb.children_last] at hlabels
  obtain ⟨a, cs, rest, rfl, hcs, hrest⟩ := exists_of_labels_eq_cons hlabels
  obtain ⟨e, cs', rest', rfl, hcs', hrest'⟩ := exists_of_labels_eq_cons hrest
  rw [labels_eq_nil_iff.mp hcs, labels_eq_nil_iff.mp hcs', labels_eq_nil_iff.mp hrest'] at htree
  exact ⟨a, e, htree⟩

/-- Rows without insertion points, whose trees are `trees`, and behind them one that has an insertion point. -/
structure RowGroup (d : Document) (shapes : List Outline) (trees : Forest Node)
    (rows ns : List NodeId) : Prop where
  exists_end : ∃ e, ns = rows ++ [e] ∧ d.attribute? e Word.insertionAttribute ≠ none ∧ d.children e = []
  plain : PlainRows d rows
  shapes_eq : (d.rowsAmong rows).map d.rowShape = shapes
  trees_eq : d.treesAt rows = trees

theorem RowGroup.congr {shapes : List Outline} {trees : Forest Node}
    {rows : List NodeId} (h : RowGroup d shapes trees rows ns) (wf : d.WellFormed) (wf' : d'.WellFormed)
    (htrees : ∀ n ∈ ns, d'.treeAt n = d.treeAt n) : RowGroup d' shapes trees rows ns := by
  obtain ⟨⟨e, rfl, hmark, hbare⟩, hplain, hshapes, heq⟩ := h
  have hrows : ∀ n ∈ rows, d'.treeAt n = d.treeAt n := fun n hn => htrees n (by simp [hn])
  have hend := htrees e (by simp)
  have hout := map_outline_eq wf wf' hrows
  refine ⟨⟨e, rfl, ?_, (children_of_treeAt hend).trans hbare⟩, hplain.congr hout,
    (map_rowShape_congr hout).trans hshapes, (treesAt_congr hrows).trans heq⟩
  rwa [attribute?, label?, hend]

/-- A fragment in which the first node is the anchor of a section, and the last one its end. -/
structure SectionFragment (d : Document) (φ a e : NodeId) (number : Nat) : Prop where
  wellFormed : d.WellFormed
  parent?_eq : d.parent? φ = none
  treeAt_eq : d.treeAt φ = tree ⟨φ, .element ⟨Word.fragment, []⟩⟩
    (cons ⟨a, Block.anchorLabel Word.row .content number⟩ nil (tree ⟨e, Block.endLabel .content number⟩ nil))

namespace SectionFragment

variable {a e : NodeId} {number : Nat} (h : SectionFragment d φ a e number)
include h

theorem children_eq : d.children φ = [a, e] :=
  children_of_tree h.treeAt_eq

theorem mem_ids : φ ∈ d.ids :=
  (h.wellFormed.mem_ids_of_treeAt h.treeAt_eq).1

theorem not_paragraph : d.isNamed φ Word.paragraph = false := by
  rw [isNamed_eq_any, (h.wellFormed.label?_of_tree h.treeAt_eq).1]
  rfl

theorem group : RowGroup d [] nil [] [e] := by
  have wf := h.wellFormed
  have hspot : d.treeAt φ = wrap [⟨nil, ⟨φ, .element ⟨Word.fragment, []⟩⟩, nil⟩]
      (tree ⟨a, Block.anchorLabel Word.row .content number⟩ nil ++
        cons ⟨e, Block.endLabel .content number⟩ nil nil) := h.treeAt_eq
  have htree : d.treeAt e = tree ⟨e, Block.endLabel .content number⟩ nil := wf.treeAt_of_spot hspot
  have hlabel : d.label? e = some (Block.endLabel .content number) := (wf.label?_of_tree htree).1
  exact ⟨⟨e, rfl, attribute?_ne_none hlabel rfl, children_of_tree htree⟩, nofun, rfl, rfl⟩

theorem placeholders_eq : d.placeholders φ = [] := by
  rw [placeholders, textElements, h.treeAt_eq]
  rfl

/-- The anchor of the section is found. -/
theorem resolve?_eq (hkind : t.kind = .content) (hnumber : t.number = number) :
    t.anchor.resolve? d φ = some a := by
  have hon : t.anchor.isOn (Block.anchorLabel Word.row .content number) = true := by
    rw [InsertionPoint.isOn, Block.anchorLabel, Label.attribute?_setAttribute_self rfl, Block.Template.anchor,
      hkind, hnumber, beq_self_eq_true]
  have hoff : t.anchor.isOn (.element ⟨Word.fragment, []⟩) = false := rfl
  rw [InsertionPoint.resolve?, h.treeAt_eq]
  simp [tree, toList, hon, hoff]

end SectionFragment

/-- An anchor is taken out, and perhaps a paragraph above it. -/
theorem removeAnchor_eq_or (strip : Bool) (a : NodeId) (d : Document) : Block.removeAnchor strip a d = d.detach a ∨
    ∃ p ∈ d.ancestors a, d.isNamed p Word.paragraph = true ∧
      Block.removeAnchor strip a d = (d.detach a).detachEmptyParagraph p := by
  unfold Block.removeAnchor
  dsimp only
  split
  · next p hp =>
    split
    · exact .inr ⟨p, List.mem_of_find?_eq_some hp, by simpa using List.find?_some hp, rfl⟩
    · exact .inl rfl
  · exact .inl rfl

theorem detachEmptyParagraph_eq_or (d : Document) (p : NodeId) :
    d.detachEmptyParagraph p = d ∨ d.detachEmptyParagraph p = d.detach p := by
  unfold Document.detachEmptyParagraph
  split
  · exact .inr rfl
  · exact .inl rfl

/-- A tree stays if the anchor is not in it. -/
theorem treeAt_removeAnchor {a : NodeId} (wf : d.WellFormed) (hn : a ∉ ids (d.treeAt n)) :
    (Block.removeAnchor strip a d).treeAt n = d.treeAt n := by
  have hout := treeAt_detach_of_not_mem wf hn
  rcases removeAnchor_eq_or strip a d with he | ⟨p, hp, -, he⟩
  · rw [he, hout]
  · have hnot : p ∉ ids ((d.detach a).treeAt n) := fun hmem => hn <| wf.mem_treeAt_trans (hout ▸ hmem)
      (wf.mem_descendants_iff.mp (wf.mem_descendants_iff_isBelow.mpr (wf.mem_ancestors_iff_isBelow.mp hp))).1
    rcases detachEmptyParagraph_eq_or (d.detach a) p with he' | he'
    · rw [he, he', hout]
    · rw [he, he', treeAt_detach_of_not_mem (wf.grows_detach a).wellFormed hnot, hout]

/-- Taking out an anchor in a fragment. -/
theorem children_removeAnchor (strip : Bool) {a : NodeId} (wf : d.WellFormed) (hφ : d.parent? φ = none)
    (hname : d.isNamed φ Word.paragraph = false) (hc : d.children φ = a :: ns) :
    d.Grows (Block.removeAnchor strip a d) ∧ (Block.removeAnchor strip a d).children φ = ns ∧
      ∀ n ∈ ns, (Block.removeAnchor strip a d).treeAt n = d.treeAt n := by
  have ha : a ∈ d.children φ := by simp [hc]
  have hparent := wf.parent?_eq_some_iff.mpr ha
  have hnone : d.ancestorNamed? a Word.paragraph = none := by
    have hup : d.ancestors φ = [] := by
      rwa [parent?, List.head?_eq_none_iff] at hφ
    rw [ancestorNamed?, wf.ancestors_of_parent? hparent, hup]
    simp [hname]
  have hout : Block.removeAnchor strip a d = d.detach a := by rw [Block.removeAnchor, hnone]
  have hnd := wf.nodup_children φ
  rw [hc, List.nodup_cons] at hnd
  refine ⟨hout ▸ wf.grows_detach a, ?_, fun n hn => ?_⟩
  · rw [hout, wf.children_detach, hc, List.filter_cons_of_neg (by simp), List.filter_eq_self]
    intro n hn
    rw [decide_eq_true_iff]
    rintro rfl
    exact hnd.1 hn
  · have hmem : n ∈ d.children φ := hc ▸ List.mem_cons_of_mem _ hn
    refine treeAt_removeAnchor wf (wf.not_mem_treeAt_of_parent? hparent ?_ (wf.not_mem_treeAt_of_mem_children hmem))
    rintro rfl
    exact hnd.1 hn

section Sections

variable {a e : NodeId} {number : Nat} (h : SectionFragment w.document φ a e number) (hkind : t.kind = .content)
  (hnumber : t.number = number)
include h hkind hnumber

theorem SectionFragment.runs_resolveAnchor :
    Runs (Block.resolveAnchor t φ) w (fun n w' => n = a ∧ w' = w) fun _ _ => True := by
  rw [Runs, resolveAnchor_eq, h.resolve?_eq hkind hnumber]
  exact ⟨rfl, rfl⟩

/-- If the section is not selected, only its end is left. -/
theorem runs_expandAll_skip (hselect : select 0 .content = false) :
    Runs (Block.expandAll strip driver (tree t I) 0 select φ false) w
      (fun _ w' => w'.document.children φ = [e] ∧ RowGroup w'.document [] nil [] [e]) fun _ _ => True := by
  rw [tree, Block.expandAll, hkind, hselect, if_neg Bool.false_ne_true]
  refine (h.runs_resolveAnchor hkind hnumber).bind ?_
  rintro n w₁ ⟨rfl, rfl⟩
  obtain ⟨hgrows, hchildren, htrees⟩ := children_removeAnchor strip h.wellFormed h.parent?_eq h.not_paragraph
    h.children_eq
  exact Runs.bind (Q := fun _ w' => w'.document.children φ = [e] ∧ RowGroup w'.document [] nil [] [e])
    (runs_change ⟨hchildren, h.group.congr h.wellFormed hgrows.wellFormed htrees⟩) fun _ _ h' => runs_pure h'

end Sections

section Selected

variable {a e : NodeId} {number : Nat} (h : SectionFragment w.document φ a e number)
  (hdriver : driver.RewritesPlaceholders) (hT : Detached w.document (tree t I))
  (hplain : PlainRows w.document t.content)
include h hdriver hT hplain

/-- Whether there are the rows of an instance between `l` and the end of the section. -/
def HasInstance (driver : Driver σ) (strip : Bool) (t : Block.Template) (I : Forest Block.Template)
    (w : Workspace σ) (φ e : NodeId) (l : List NodeId) (w' : Workspace σ) : Prop :=
  ∃ rows w₁, Block.instantiate driver (Block.expandAll strip driver I 0) t false .all w = .ok rows w₁ ∧
    w'.document.children φ = l ++ (rows ++ [e]) ∧
    RowGroup w'.document ((w.document.rowsAmong t.content).map w.document.rowShape) (w₁.document.treesAt rows) rows
      (rows ++ [e])

/-- An instance of the section is put behind its anchor. -/
theorem runs_insertInstance_section :
    Runs (Block.insertInstance driver (Block.expandAll strip driver I 0) t false .all a) w
      (fun _ w' => ChangesChildren φ w.document w'.document ∧ HasInstance driver strip t I w φ e [a] w')
      fun _ _ => True := by
  have wf := h.wellFormed
  have hnew := runs_instantiate_new strip false .all hdriver.staysBelow hT wf
  have hrows := runs_instantiate_rows strip false .all hdriver wf hT hplain
  have he : e ∈ w.document.children φ := by simp [h.children_eq]
  refine (hnew.and hrows).traced.bind ?_
  rintro rows w₁ ⟨hrun, ⟨hleaves, hparts⟩, hrows, hshapes⟩
  obtain ⟨hchanges, hchildren, htrees⟩ := insertParts_children (p := φ) (l := []) wf hleaves hparts h.children_eq
  have hsame := map_outline_eq hleaves.grows.wellFormed hchanges.grows.wellFormed htrees
  refine runs_changeGet ⟨hchanges, rows, w₁, hrun, hchildren, ?_, hrows.congr hsame,
    (map_rowShape_congr hsame).trans hshapes, treesAt_congr htrees⟩
  refine (h.group.congr wf hchanges.grows.wellFormed fun n hn => ?_).exists_end.imp
    fun m ⟨hm, hmark, hbare⟩ => ⟨?_, hmark, hbare⟩
  · obtain rfl : n = e := by simpa using hn
    exact hchanges.treeAt_eq wf (wf.mem_ids_of_mem_children he) (wf.not_mem_treeAt_of_mem_children he)
  · rw [hm]
    rfl

/-- If the section is selected, there are the rows of an instance in front of its end. -/
theorem runs_expandAll_section (hkind : t.kind = .content) (hnumber : t.number = number)
    (hselect : select 0 .content = true) :
    Runs (Block.expandAll strip driver (tree t I) 0 select φ false) w
      (fun _ w' => HasInstance driver strip t I w φ e [] w') fun _ _ => True := by
  have hbody : expandBody driver (Block.expandAll strip driver I 0) t (false || t.kind = .ignoreStart) a =
      discard (Block.insertInstance driver (Block.expandAll strip driver I 0) t false .all a) := by
    simp [expandBody, hkind]
  rw [tree, Block.expandAll, hkind, hselect, if_pos rfl, ← expandOneVia_resolveAnchor]
  refine Runs.bind ?_ fun _ _ h' => runs_pure h'
  refine Runs.bind (Q := fun n w₁ => n = a ∧ w₁ = w) (h.runs_resolveAnchor hkind hnumber) ?_
  rintro n w₁ ⟨hn, hw⟩
  rw [hn, hw, hbody]
  refine (Runs.discard (runs_insertInstance_section h hdriver hT hplain)).bind ?_
  rintro - w₂ ⟨hchanges, rows, w₁, hrun, hchildren, hgroup⟩
  have hname : w₂.document.isNamed φ Word.paragraph = false := by
    rw [isNamed_eq_any, hchanges.label?_eq φ h.mem_ids, ← isNamed_eq_any]
    exact h.not_paragraph
  obtain ⟨hgrows, hrest, htrees⟩ := children_removeAnchor strip hchanges.grows.wellFormed
    ((hchanges.parent?_eq φ h.mem_ids).trans h.parent?_eq) hname hchildren
  exact runs_change ⟨rows, w₁, hrun, hrest, hgroup.congr hchanges.grows.wellFormed hgrows.wellFormed htrees⟩

end Selected

/-- Whether `rows`, with these trees, are an instance of the section that was made, in the driver's state that there
is, when other nodes had been added. -/
def MadeRows (driver : Driver σ) (strip : Bool) (t : Block.Template) (I : Forest Block.Template)
    (w : Workspace σ) (rows : List NodeId) (trees : Forest Node) : Prop :=
  ∃ w₁ w₂, w₁.state = w.state ∧ w.document.Leaves w₁.document (· ∈ w.document.ids) ∧
    Block.instantiate driver (Block.expandAll strip driver I 0) t false .all w₁ = .ok rows w₂ ∧
    w₂.document.treesAt rows = trees

section Block

variable {t' : Block.Template} {number : Nat} {first last : NodeId} {shapes : List Outline}
  (hdriver : driver.RewritesPlaceholders) (hscope : driver.KeepsScope) (wf : w.document.WellFormed)
  (hT : Detached w.document (tree t (tree t' I))) (hb : RowBounds w.document t.content number first last)
include hdriver hscope wf hT hb

/-- An instance of a block around rows is put together in a fragment with the bounds of its section. -/
theorem runs_instantiate_of_section {R : List NodeId → Forest Node → Prop}
    (hsection : ∀ w₁ a e, w₁.state = w.state → w.document.Leaves w₁.document (· ∈ w.document.ids) →
      SectionFragment w₁.document w.document.freshId a e number →
      Runs (Block.expandAll strip driver (tree t' I) 0 select w.document.freshId false) w₁
        (fun _ w' => ∃ rows trees, w'.document.children w.document.freshId = rows ++ [e] ∧ R rows trees ∧
          RowGroup w'.document shapes trees rows (rows ++ [e])) fun _ _ => True) :
    Runs (Block.instantiate driver (Block.expandAll strip driver (tree t' I) 0) t false select) w
      (fun ns w' => ∃ rows trees, R rows trees ∧ RowGroup w'.document shapes trees rows ns) fun _ _ => True := by
  obtain ⟨d, s⟩ := w
  have hcopied := copied_fragment wf fun n hn => (hT t (by simp [tree, toList]) n hn).1
  obtain ⟨a, e, htree⟩ := hcopied.exists_bounds wf hb
  have hfragment : SectionFragment _ d.freshId a e number :=
    ⟨hcopied.leaves.grows.wellFormed, hcopied.parent?_eq, htree⟩
  rw [instantiate_eq]
  refine Runs.bind (Q := fun n w₁ => n = d.freshId ∧ w₁ = ⟨(d.createElement Word.fragment).2, s⟩)
    (runs_changeGet ⟨rfl, rfl⟩) ?_
  rintro n w₁ ⟨rfl, rfl⟩
  refine Runs.bind (Q := fun _ w₂ => w₂.state = s ∧ w₂.document =
    (d.createElement Word.fragment).2.appendCopies d.freshId t.content) (runs_change ⟨rfl, rfl⟩) ?_
  rintro - ⟨d₂, s₂⟩ ⟨rfl, hd₂⟩
  rw [← hd₂] at hcopied hfragment
  refine Runs.bind (Q := fun _ w₃ => w₃.document.WellFormed ∧ ∃ rows trees,
    w₃.document.children d.freshId = rows ++ [e] ∧ R rows trees ∧
      RowGroup w₃.document shapes trees rows (rows ++ [e])) ?_ ?_
  · -- There are no texts in the fragment yet.
    refine Runs.bind (Q := fun _ w₃ => w₃ = ⟨d₂, s₂⟩) (Runs.ask ((hdriver d.freshId ⟨d₂, s₂⟩).traced.mono ?_ ?_)) ?_
    · rintro _ ⟨d₃, s₃⟩ ⟨hrun, ns, hns⟩
      have hd₃ : d₃ = d₂ := hns.eq_of_placeholders_eq_nil hfragment.placeholders_eq
      rw [hd₃, hscope.substitute_ok hrun]
    · exact fun _ _ _ => trivial
    · rintro - w₃ rfl
      have hT' : Detached d₂ (tree t' I) :=
        Detached.of_leaves (fun u hu => hT u (by rw [tree, toList]; simp [hu])) hcopied.leaves
      have hkeeps : RunsOnGrid (fun _ => False)
          (Block.expandAll strip driver (tree t' I) 0 select d.freshId false) ⟨d₂, s₂⟩ :=
        runs_expandAll_grid hdriver.staysBelow ⟨hfragment.wellFormed, fun _ h => h.elim, fun _ h => h.elim,
          fun _ h => h.elim⟩ hT' 0
      exact (hkeeps.and (hsection ⟨d₂, s₂⟩ a e rfl hcopied.leaves hfragment)).mono
        (fun _ _ h' => ⟨h'.1.grows.wellFormed, h'.2⟩) fun _ _ _ => trivial
  · rintro - w₃ ⟨wf₃, rows, trees, hchildren, hR, hgroup⟩
    refine runs_changeGet ⟨rows, trees, hR, ?_⟩
    change RowGroup _ _ _ _ (w₃.document.children d.freshId)
    rw [hchildren]
    exact hgroup.congr wf₃ (wf₃.grows_takeChildren _).wellFormed
      fun n hn => wf₃.treeAt_takeChildren_of_mem (hchildren ▸ hn)

variable (hkind : t'.kind = .content) (hnumber : t'.number = number)
include hkind hnumber

variable (strip select) in
/-- Without the section, no rows. -/
theorem runs_instantiate_skip (hselect : select 0 .content = false) :
    Runs (Block.instantiate driver (Block.expandAll strip driver (tree t' I) 0) t false select) w
      (fun ns w' => RowGroup w'.document [] nil [] ns) fun _ _ => True :=
  (runs_instantiate_of_section (R := fun rows trees => rows = [] ∧ trees = nil) hdriver hscope wf hT hb
    fun _ _ _ _ _ h => (runs_expandAll_skip h hkind hnumber hselect).mono
      (fun _ _ ⟨hchildren, hgroup⟩ => ⟨[], nil, hchildren, ⟨rfl, rfl⟩, hgroup⟩) fun _ _ h' => h').mono
    (fun _ _ ⟨_, _, ⟨hrows, htrees⟩, hgroup⟩ => hrows ▸ htrees ▸ hgroup) fun _ _ h' => h'

variable (strip select) in
/-- With the section, the rows of an instance of it. -/
theorem runs_instantiate_section (hplain : PlainRows w.document t'.content) (hselect : select 0 .content = true) :
    Runs (Block.instantiate driver (Block.expandAll strip driver (tree t' I) 0) t false select) w
      (fun ns w' => ∃ rows trees, MadeRows driver strip t' I w rows trees ∧
        RowGroup w'.document ((w.document.rowsAmong t'.content).map w.document.rowShape) trees rows ns)
      fun _ _ => True := by
  refine runs_instantiate_of_section hdriver hscope wf hT hb fun w₁ a e hs hleaves h => ?_
  have hT' : Detached w.document (tree t' I) := fun u hu => hT u (by rw [tree, toList]; simp [hu])
  have hmem : ∀ c ∈ t'.content, c ∈ w.document.ids := fun c hc => (hT' t' (by simp [tree, toList]) c hc).1
  have htrees : ∀ c ∈ t'.content, w₁.document.treeAt c = w.document.treeAt c := fun c hc =>
    wf.treeAt_congr hleaves.grows.wellFormed (hmem c hc) fun m hm =>
      have hsame := hleaves.unchanged m (wf.mem_ids_of_mem_treeAt hm)
      ⟨hsame.label?_eq, hsame.children_eq⟩
  have hout := map_outline_eq wf hleaves.grows.wellFormed htrees
  refine (runs_expandAll_section h hdriver (hT'.of_leaves hleaves) (hplain.congr hout) hkind hnumber hselect).mono
    ?_ fun _ _ h' => h'
  rintro - w' ⟨rows, w₂, hrun, hchildren, hgroup⟩
  exact ⟨rows, _, hchildren, ⟨w₁, w₂, hs, hleaves, hrun, rfl⟩, map_rowShape_congr hout ▸ hgroup⟩

end Block

end Instance

end WordTemplate
