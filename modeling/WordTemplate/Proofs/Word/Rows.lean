import WordTemplate.Proofs.Word.Upright

/-!
# Rows and what is seen of them

Of a row its label counts and the labels of its cells: `rowShape`. Both stay if tables are left as they are, and
when insertion points are removed from elsewhere. So cleaning up takes the rows with insertion points out of a table
and leaves the others.

* `Retouches.rowShape_eq`, `RemovesPoints.rowShape_eq`: rows keep their shapes.
* `Upright.finish_rows`: the rows of a table after the cleanup.
-/

namespace WordTemplate

open Xml Forest Xml.Document

variable {d₀ d d' : Document} {n p r φ root T : NodeId} {ns ms : List NodeId} {R S : NodeId → Prop}

/-! ## What is seen of a row -/

/-- The label of a node, and labels below it. -/
abbrev Outline := Option Label × List (Option Label)

/-- The label of a node and those of its children. -/
def Xml.Document.outline (d : Document) (n : NodeId) : Outline :=
  (d.label? n, (d.children n).map d.label?)

/-- The label of a row and those of its cells. -/
def Xml.Document.rowShape (d : Document) (row : NodeId) : Outline :=
  (d.label? row, (d.childrenNamed row Word.cell).map d.label?)

/-- The rows among some nodes. -/
def Xml.Document.rowsAmong (d : Document) (ns : List NodeId) : List NodeId :=
  ns.filter (d.isNamed · Word.row)

namespace Xml.Document

theorem isNamed_eq_any (d : Document) (n : NodeId) (name : String) :
    d.isNamed n name = (d.label? n).any (Label.isNamed name) := by
  rw [isNamed, name?]
  cases d.label? n <;> rfl

/-- The shape of a row is read off its outline. -/
theorem rowShape_eq_outline (d : Document) (n : NodeId) : d.rowShape n =
    ((d.outline n).1, (d.outline n).2.filter (·.any (Label.isNamed Word.cell))) := by
  simp only [rowShape, outline, childrenNamed, List.filter_map, Function.comp_def, isNamed_eq_any]

theorem rowShape_congr (h : d'.outline n = d.outline n) : d'.rowShape n = d.rowShape n := by
  rw [rowShape_eq_outline, rowShape_eq_outline, h]

theorem map_rowShape_rowsAmong (d : Document) (ns : List NodeId) :
    (d.rowsAmong ns).map d.rowShape =
      ((ns.map d.outline).filter (·.1.any (Label.isNamed Word.row))).map fun (l, ls) =>
        (l, ls.filter (·.any (Label.isNamed Word.cell))) := by
  rw [List.filter_map, List.map_map, rowsAmong]
  simp only [Function.comp_def, outline, isNamed_eq_any]
  exact List.map_congr_left fun n _ => d.rowShape_eq_outline n

theorem map_rowShape_congr (h : ms.map d'.outline = ns.map d.outline) :
    (d'.rowsAmong ms).map d'.rowShape = (d.rowsAmong ns).map d.rowShape := by
  rw [map_rowShape_rowsAmong, map_rowShape_rowsAmong, h]

/-- What is seen of a node if its tree is known. -/
theorem WellFormed.outline_of_tree (wf : d.WellFormed) {a : Node} {as : Forest Node}
    (h : d.treeAt n = tree a as) : d.outline n = (some a.label, (labels as).roots.map some) := by
  have hbelow : ∀ c ∈ as.roots, d.label? c.id = some c.label := fun c hc =>
    wf.label?_of_mem_treeAt (n := n) (by simp [h, tree, toList, (roots_sublist as).mem hc])
  rw [outline, (wf.label?_of_tree h).1, children_of_tree h, labels, roots_map, List.map_map, List.map_map]
  congr 1
  exact List.map_congr_left hbelow

theorem outline_congr (hlabel : d'.label? n = d.label? n) (hchildren : d'.children n = d.children n)
    (hbelow : ∀ c ∈ d.children n, d'.label? c = d.label? c) : d'.outline n = d.outline n := by
  rw [outline, outline, hlabel, hchildren, List.map_congr_left hbelow]

/-- What is seen of a node is read off its tree. -/
theorem WellFormed.outline_eq (wf : d.WellFormed) (wf' : d'.WellFormed) (h : d'.treeAt n = d.treeAt n) :
    d'.outline n = d.outline n := by
  by_cases hn : n ∈ d.ids
  · obtain ⟨a, as, -, htree⟩ := wf.exists_treeAt hn
    rw [wf.outline_of_tree htree, wf'.outline_of_tree (h.trans htree)]
  · have hnil := wf.treeAt_eq_nil hn
    rw [outline, outline, label?, label?, children, children, h, hnil]
    rfl

theorem map_outline_eq (wf : d.WellFormed) (wf' : d'.WellFormed) (h : ∀ n ∈ ns, d'.treeAt n = d.treeAt n) :
    ns.map d'.outline = ns.map d.outline :=
  List.map_congr_left fun n hn => wf.outline_eq wf' (h n hn)

/-- The labels at the top of a forest, each with those right below it. -/
def outlines : Forest Label → List Outline
  | .nil => []
  | .cons l cs rest => (some l, cs.roots.map some) :: outlines rest

theorem WellFormed.map_outline_roots (wf : d.WellFormed) {f : Forest Node}
    (hf : ∀ l a as r, f = l ++ cons a as r → d.treeAt a.id = tree a as) :
    (f.roots.map Node.id).map d.outline = outlines (labels f) := by
  induction f with
  | nil => rfl
  | cons a as rest _ ih =>
    rw [labels_cons, outlines, roots, List.map_cons, List.map_cons, wf.outline_of_tree (hf nil a as rest rfl),
      ih fun l b bs r he => hf (cons a as l) b bs r (by rw [he]; rfl)]

theorem WellFormed.map_outline (wf : d.WellFormed) (hns : ∀ n ∈ ns, n ∈ d.ids) :
    ns.map d.outline = outlines (d.contentLabels ns) := by
  induction ns with
  | nil => rfl
  | cons n ns ih =>
    obtain ⟨a, as, -, htree⟩ := wf.exists_treeAt (hns n (List.mem_cons_self ..))
    rw [List.map_cons, ih fun m hm => hns m (List.mem_cons_of_mem _ hm), contentLabels, contentLabels,
      treesAt_cons, htree, wf.outline_of_tree htree, tree, cons_append, labels_cons, nil_append, outlines]

/-- Whether some nodes have no insertion points, nor have the children of the rows among them. -/
def PlainRows (d : Document) (ns : List NodeId) : Prop :=
  ∀ n ∈ ns, d.attribute? n Word.insertionAttribute = none ∧
    (d.isNamed n Word.row = true → ∀ c ∈ d.children n, d.attribute? c Word.insertionAttribute = none)

theorem PlainRows.congr (h : PlainRows d ns) (he : ms.map d'.outline = ns.map d.outline) : PlainRows d' ms := by
  intro m hm
  have hmem : d'.outline m ∈ ns.map d.outline := he ▸ List.mem_map_of_mem hm
  obtain ⟨n, hn, hout⟩ := List.mem_map.mp hmem
  obtain ⟨hlabel, hchildren⟩ := Prod.mk.inj hout
  obtain ⟨hplain, hcells⟩ := h n hn
  refine ⟨by rw [attribute?, ← hlabel]; exact hplain, fun hrow c hc => ?_⟩
  have hmem : d'.label? c ∈ (d.children n).map d.label? := hchildren ▸ List.mem_map_of_mem hc
  obtain ⟨c', hc', hlabel'⟩ := List.mem_map.mp hmem
  rw [attribute?, ← hlabel']
  exact hcells (by rw [isNamed_eq_any, hlabel, ← isNamed_eq_any]; exact hrow) c' hc'

theorem rowsAmong_congr (h : ∀ n ∈ ns, d'.treeAt n = d.treeAt n) : d'.rowsAmong ns = d.rowsAmong ns :=
  List.filter_congr fun n hn => by rw [isNamed_eq_any, isNamed_eq_any, label?, label?, h n hn]

theorem unmarked_congr (h : ∀ n ∈ ns, d'.treeAt n = d.treeAt n) : d'.unmarked ns = d.unmarked ns :=
  List.filter_congr fun n hn => by rw [attribute?, attribute?, label?, label?, h n hn]

theorem unmarked_rowsAmong (d : Document) (ns : List NodeId) :
    d.unmarked (d.rowsAmong ns) = d.rowsAmong (d.unmarked ns) := by
  rw [unmarked, rowsAmong, rowsAmong, unmarked, List.filter_filter, List.filter_filter]
  exact List.filter_congr fun n _ => Bool.and_comm ..

theorem PlainRows.unmarked_eq (h : PlainRows d ns) : d.unmarked ns = ns :=
  List.filter_eq_self.mpr fun n hn => by rw [(h n hn).1]; rfl

namespace Retouches

variable (h : d₀.Retouches R d)
include h

theorem rowsAmong_eq (hns : ∀ n ∈ ns, n ∈ d₀.ids) : d.rowsAmong ns = d₀.rowsAmong ns :=
  List.filter_congr fun n hn => h.isNamed_eq (hns n hn) _

theorem rowShape_eq (wf : d₀.WellFormed) (hr : d₀.isNamed r Word.row = true) : d.rowShape r = d₀.rowShape r := by
  have hmem := wf.mem_ids_of_isNamed hr
  rw [rowShape, rowShape, h.childrenNamed_eq r hmem (isNamed_eq_false_of_ne hr (by decide)) _ (by simp),
    h.label?_eq r hmem fun hoff => by simp [hoff.1] at hr]
  congr 1
  refine List.map_congr_left fun c hc => ?_
  obtain ⟨hmem, hcell⟩ := mem_childrenNamed.mp hc
  exact h.label?_eq c (wf.mem_ids_of_mem_children hmem) fun hoff => by simp [hoff.2] at hcell

theorem plainRows (wf : d₀.WellFormed) (hns : ∀ n ∈ ns, n ∈ d₀.ids) (hplain : PlainRows d₀ ns) : PlainRows d ns :=
  fun n hn => ⟨(h.attribute?_eq n).trans (hplain n hn).1, fun hrow =>
    h.plain wf ((hplain n hn).2 ((h.isNamed_eq (hns n hn) _).symm.trans hrow))⟩

end Retouches

end Xml.Document

/-! ## Insertion points -/

/-- Whether nodes with insertion points were taken out or lost these, and all others stayed. -/
structure RemovesPoints (d d' : Document) : Prop where
  grows : d.Grows d'
  name?_eq : ∀ n, d'.name? n = d.name? n
  label?_eq : ∀ n, d.attribute? n Word.insertionAttribute = none → d'.label? n = d.label? n
  parent?_eq : ∀ n, d.attribute? n Word.insertionAttribute = none → d'.parent? n = d.parent? n
  parent?_eq_none : ∀ n, d.parent? n = none → d'.parent? n = none
  sublist : ∀ p, (d'.children p).Sublist (d.children p)

namespace RemovesPoints

theorem refl (wf : d.WellFormed) : RemovesPoints d d :=
  ⟨.refl wf, fun _ => rfl, fun _ _ => rfl, fun _ _ => rfl, fun _ h => h, fun _ => .refl _⟩

theorem attribute?_eq_none (h : RemovesPoints d d') (hn : d.attribute? n Word.insertionAttribute = none) :
    d'.attribute? n Word.insertionAttribute = none := by
  rwa [attribute?, h.label?_eq n hn]

theorem trans {d'' : Document} (h : RemovesPoints d d') (h' : RemovesPoints d' d'') : RemovesPoints d d'' where
  grows := h.grows.trans h'.grows
  name?_eq n := (h'.name?_eq n).trans (h.name?_eq n)
  label?_eq n hn := (h'.label?_eq n (h.attribute?_eq_none hn)).trans (h.label?_eq n hn)
  parent?_eq n hn := (h'.parent?_eq n (h.attribute?_eq_none hn)).trans (h.parent?_eq n hn)
  parent?_eq_none n hn := h'.parent?_eq_none n (h.parent?_eq_none n hn)
  sublist p := (h'.sublist p).trans (h.sublist p)

theorem ne_of_attribute? {m : NodeId} (hm : d.attribute? m Word.insertionAttribute = none)
    (hn : d.attribute? n Word.insertionAttribute ≠ none) : m ≠ n := by
  rintro rfl
  exact hn hm

theorem detach (wf : d.WellFormed) (hn : d.attribute? n Word.insertionAttribute ≠ none) :
    RemovesPoints d (d.detach n) where
  grows := wf.grows_detach n
  name?_eq m := by rw [name?, name?, (wf.moves_detach n).label?_eq m]
  label?_eq m _ := (wf.moves_detach n).label?_eq m
  parent?_eq m hm := wf.parent?_detach_of_ne (ne_of_attribute? hm hn)
  parent?_eq_none m hm := wf.parent?_detach (.inr hm)
  sublist p := by
    rw [wf.children_detach]
    exact List.filter_sublist

theorem eraseAttribute (wf : d.WellFormed) (hn : d.attribute? n Word.insertionAttribute ≠ none) :
    RemovesPoints d (d.eraseAttribute n Word.insertionAttribute) where
  grows := wf.grows_relabel n _
  name?_eq m := by
    rw [Document.eraseAttribute]
    by_cases hm : m = n
    · rw [hm, name?, name?, wf.label?_relabel_self]
      cases d.label? n with
      | none => rfl
      | some l => exact Label.name?_eraseAttribute
    · rw [name?, name?, wf.label?_relabel_ne hm]
  label?_eq m hm := wf.label?_relabel_ne (ne_of_attribute? hm hn) _
  parent?_eq m hm := (wf.unchanged_relabel (ne_of_attribute? hm hn) _).parent?_eq
  parent?_eq_none m hm := wf.parent?_relabel hm _
  sublist p := by rw [Document.eraseAttribute, wf.children_relabel]

theorem step (wf : d.WellFormed) (n : NodeId) : RemovesPoints d (d.removeInsertionPoint n) := by
  unfold removeInsertionPoint
  split
  · exact .refl wf
  · next hn =>
    split
    · exact detach wf (by simp [hn])
    · exact eraseAttribute wf (by simp [hn])

theorem foldl (wf : d.WellFormed) (ns : List NodeId) : RemovesPoints d (ns.foldl removeInsertionPoint d) :=
  List.foldlRecOn ns removeInsertionPoint (RemovesPoints.refl wf) fun _ h n _ =>
    h.trans (step h.grows.wellFormed n)

/-- A node without insertion points among its children keeps them. -/
theorem children_eq (h : RemovesPoints d d') (wf : d.WellFormed)
    (hp : ∀ c ∈ d.children p, d.attribute? c Word.insertionAttribute = none) : d'.children p = d.children p := by
  refine (h.sublist p).eq_of_length_le (List.subperm_of_subset (wf.nodup_children p) fun c hc => ?_).length_le
  rw [← h.grows.wellFormed.parent?_eq_some_iff, h.parent?_eq c (hp c hc)]
  exact wf.parent?_eq_some_iff.mpr hc

theorem isNamed_eq (h : RemovesPoints d d') (n : NodeId) (name : String) : d'.isNamed n name = d.isNamed n name := by
  rw [isNamed, isNamed, h.name?_eq]

/-- A row without insertion points keeps its shape. -/
theorem rowShape_eq (h : RemovesPoints d d') (wf : d.WellFormed) (hplain : PlainRows d ns) (hmem : r ∈ ns)
    (hr : d.isNamed r Word.row = true) : d'.rowShape r = d.rowShape r := by
  obtain ⟨hnone, hcells⟩ := hplain r hmem
  exact rowShape_congr (outline_congr (h.label?_eq r hnone) (h.children_eq wf (hcells hr))
    fun c hc => h.label?_eq c (hcells hr c hc))

end RemovesPoints

theorem removesPoints (wf : d.WellFormed) (root : NodeId) : RemovesPoints d (d.removeInsertionPoints root) :=
  .foldl wf _

/-- An element with an insertion point and without children is taken out when its turn has come. -/
theorem parent?_removeInsertionPoints (wf : d.WellFormed) {ns : List NodeId} (hn : n ∈ ns)
    (hmark : d.attribute? n Word.insertionAttribute ≠ none) (hbare : d.children n = []) :
    (ns.foldl removeInsertionPoint d).parent? n = none := by
  induction ns generalizing d with
  | nil => cases hn
  | cons m ns ih =>
    rw [List.foldl_cons]
    have hm := RemovesPoints.step wf m
    have wf' := hm.grows.wellFormed
    by_cases he : n = m
    · subst he
      obtain ⟨value, hvalue⟩ := Option.ne_none_iff_exists'.mp hmark
      have hout : d.removeInsertionPoint n = d.detach n := by simp [removeInsertionPoint, hvalue, hbare]
      exact (RemovesPoints.foldl wf' ns).parent?_eq_none n (hout ▸ wf.parent?_detach (.inl rfl))
    · refine ih wf' ((List.mem_cons.mp hn).resolve_left he) ?_ (List.sublist_nil.mp (hbare ▸ hm.sublist n))
      have hlabel : (d.removeInsertionPoint m).label? n = d.label? n := by
        unfold removeInsertionPoint
        split
        · rfl
        · split
          · exact (wf.moves_detach m).label?_eq n
          · exact wf.label?_relabel_ne he _
      rwa [attribute?, hlabel]

/-- If all the children with insertion points are without children, the others are left. -/
theorem children_removeInsertionPoints (wf : d.WellFormed) (hp : p = root ∨ d.IsBelow p root)
    (hbare : ∀ c ∈ d.children p, d.attribute? c Word.insertionAttribute ≠ none → d.children c = []) :
    (d.removeInsertionPoints root).children p = d.unmarked (d.children p) := by
  have h := removesPoints wf root
  have wf' := h.grows.wellFormed
  -- The children with insertion points are below the root, so the turn of each has come.
  have hplain : ∀ c ∈ (d.removeInsertionPoints root).children p, d.attribute? c Word.insertionAttribute = none := by
    intro c hc
    by_contra hmark
    have hold := (h.sublist p).mem hc
    have hparent := wf.parent?_eq_some_iff.mpr hold
    have hbelow : d.IsBelow c root := by
      rcases hp with rfl | hp
      · exact .single hparent
      · exact .head hparent hp
    obtain ⟨node, hnode, rfl⟩ := List.mem_map.mp (wf.mem_descendants_iff_isBelow.mpr hbelow)
    have hturn : node.id ∈ d.insertionNodes root := by
      refine List.mem_map_of_mem (List.mem_filter.mpr ⟨hnode, ?_⟩)
      rw [attribute?, wf.label?_of_mem_nodesBelow hnode] at hmark
      exact Option.isSome_iff_ne_none.mpr hmark
    have hnone : (d.removeInsertionPoints root).parent? node.id = none :=
      parent?_removeInsertionPoints wf hturn hmark (hbare _ hold hmark)
    rw [← wf'.parent?_eq_some_iff, hnone] at hc
    cases hc
  have hsublist : ((d.removeInsertionPoints root).children p).Sublist (d.unmarked (d.children p)) := by
    have hfilter := (h.sublist p).filter fun c => (d.attribute? c Word.insertionAttribute).isNone
    rwa [List.filter_eq_self.mpr fun c hc => by rw [hplain c hc]; rfl] at hfilter
  refine hsublist.eq_of_length_le (List.subperm_of_subset ((wf.nodup_children p).filter _) fun c hc => ?_).length_le
  obtain ⟨hold, hnone⟩ := List.mem_filter.mp hc
  rw [← wf'.parent?_eq_some_iff, h.parent?_eq c (Option.isNone_iff_eq_none.mp hnone)]
  exact wf.parent?_eq_some_iff.mpr hold

/-! ## The cleanup -/

theorem Upright.removesPoints (h : Upright S root T d) (hd : RemovesPoints d d') : Upright S root T d' :=
  h.congr hd.grows.wellFormed (fun n _ => hd.name?_eq n) (fun n hn => hd.parent?_eq n (h.plain n hn))
    fun n hn => hd.attribute?_eq_none (h.plain n hn)

/-- Of the rows of a table those with insertion points are taken out, if nothing is in them. The others stay. -/
theorem Upright.finish_rows (h : Upright S root T d)
    (hbare : ∀ c ∈ d.children T, d.attribute? c Word.insertionAttribute ≠ none → d.children c = []) (strip : Bool) :
    Upright S root T (d.finish strip root) ∧
      (d.finish strip root).childrenNamed T Word.row = d.unmarked (d.childrenNamed T Word.row) ∧
      ∀ ns, PlainRows d ns → ∀ r ∈ ns, d.isNamed r Word.row = true →
        (d.finish strip root).rowShape r = d.rowShape r := by
  have wf := h.wellFormed
  have hpoints := WordTemplate.removesPoints wf root
  have hup := h.removesPoints hpoints
  -- Nothing of what comes after the insertion points has been removed is about rows.
  have hrest : (d.removeInsertionPoints root).Retouches (¬ S ·) (d.finish strip root) :=
    (cleaning_upright S root T).finish hup (fun hd n hn => (hd.wellFormed.mem_textElements_iff.mp hn).2)
      (fun hd node hnode hname => by rwa [isNamed_of_label? (hd.wellFormed.label?_of_mem_nodesBelow hnode)])
      fun _ _ _ hd hp => hd.detachEmptyParagraph hp
  refine ⟨hup.retouches hrest, ?_, fun ns hplain r hmem hr => ?_⟩
  · rw [hrest.childrenNamed_eq T (hup.mem_ids hup.start) (isNamed_eq_false_of_ne hup.table (by decide)) _ (by simp),
      childrenNamed, children_removeInsertionPoints wf (.inr h.below) hbare, childrenNamed, unmarked, unmarked,
      List.filter_filter, List.filter_filter]
    refine List.filter_congr fun c _ => ?_
    rw [hpoints.isNamed_eq, Bool.and_comm]
  · rw [hrest.rowShape_eq hup.wellFormed ((hpoints.isNamed_eq r _).trans hr), hpoints.rowShape_eq wf hplain hmem hr]

end WordTemplate
