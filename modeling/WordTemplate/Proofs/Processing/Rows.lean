import WordTemplate.Proofs.Processing.AroundRows
import WordTemplate.Proofs.Processing.Artefacts
import WordTemplate.Proofs.Processing.Building
import WordTemplate.Proofs.Processing.Rendering

/-!
# Rows for the items of a collection

If a collection is around rows of a table, these rows are repeated as a whole: in the end there is a group of them
for every item, with as many cells as before, and the other rows of the table are those that were there. No row is
left of those that bore the insertion points.

* `RowsTaken.runs_expandVia`: the rows when all blocks have been expanded.
* `RowsExpanded.repeatsRows`: the rows after the cleanup.
* `process_repeats_rows`: the whole run.
-/

namespace WordTemplate

open Xml Forest Binding Xml.Document

variable {σ : Type} {d d' prepared : Document} {root T A n : NodeId} {S : NodeId → Prop}

/-! ## The anchor is taken out -/

/-- When an anchor among the children of a table is taken out, the others stay as they are. -/
theorem Upright.removeAnchor {u v : List NodeId} (h : Upright S root T d)
    (hA : d.attribute? A Word.insertionAttribute ≠ none) (hc : d.children T = u ++ A :: v) (strip : Bool) :
    Upright S root T (Block.removeAnchor strip A d) ∧
      (Block.removeAnchor strip A d).childrenNamed T Word.row = (Block.removeAnchor strip A d).rowsAmong (u ++ v) ∧
      (∀ n ∈ (Block.removeAnchor strip A d).children T, n ∈ u ++ v) ∧
      ∀ n ∈ u ++ v, (Block.removeAnchor strip A d).treeAt n = d.treeAt n := by
  have wf := h.wellFormed
  have hpoints := RemovesPoints.detach wf hA
  have hup := h.removesPoints hpoints
  have hnd := wf.nodup_children T
  rw [hc, List.nodup_middle, List.nodup_cons] at hnd
  have hrest : (d.detach A).children T = u ++ v := by
    have hne : ∀ n ∈ u ++ v, n ≠ A := fun n hn he => hnd.1 (he ▸ hn)
    rw [wf.children_detach, hc, List.filter_append, List.filter_cons_of_neg (by simp), ← List.filter_append,
      List.filter_eq_self]
    exact fun n hn => by simpa using hne n hn
  -- A paragraph that is taken out with it is not on the way to the table.
  have hretouched : (d.detach A).Retouches (¬ S ·) (Block.removeAnchor strip A d) := by
    rcases removeAnchor_eq_or strip A d with he | ⟨p, -, hname, he⟩ <;> rw [he]
    · exact .refl hup.wellFormed
    · exact hup.detachEmptyParagraph ((hpoints.isNamed_eq p _).trans hname)
  refine ⟨hup.retouches hretouched, ?_, fun n hn => ?_, fun n hn => ?_⟩
  · rw [hretouched.childrenNamed_eq T (hup.mem_ids hup.start) (isNamed_eq_false_of_ne hup.table (by decide)) _
      (by simp), childrenNamed, hrest]
    exact (hretouched.rowsAmong_eq fun n hn => hup.wellFormed.mem_ids_of_mem_children (hrest ▸ hn)).symm
  · rw [← hrest]
    rcases removeAnchor_eq_or strip A d with he | ⟨p, -, -, he⟩
    · rwa [he] at hn
    · rcases detachEmptyParagraph_eq_or (d.detach A) p with he' | he' <;> rw [he, he'] at hn
      · exact hn
      · rw [hup.wellFormed.children_detach] at hn
        exact List.mem_of_mem_filter hn
  · have hmem : n ∈ d.children T := by
      rw [hc]
      simp only [List.mem_append, List.mem_cons] at hn ⊢
      tauto
    have hAmem : A ∈ d.children T := by simp [hc]
    refine treeAt_removeAnchor wf (wf.not_mem_treeAt_of_parent? (wf.parent?_eq_some_iff.mpr hAmem) ?_
      (wf.not_mem_treeAt_of_mem_children hmem))
    rintro rfl
    exact hnd.1 hn

theorem Upright.changesChildren (h : Upright S root T d) (hd : ChangesChildren T d d') : Upright S root T d' := by
  refine h.congr hd.grows.wellFormed (fun n hn => ?_) (fun n hn => hd.parent?_eq n (h.mem_ids hn)) fun n hn => ?_
  · rw [name?, name?, hd.label?_eq n (hn.elim h.mem_ids fun he => he ▸ h.root_mem_ids)]
  · rw [attribute?, hd.label?_eq n (h.mem_ids hn)]
    exact h.plain n hn

/-! ## The rows when all blocks have been expanded -/

/-- The rows of `T` when a block around rows of it has been expanded: in front of and behind its anchor the rows that
were in `l` and `r`, and between them a group of rows for every item. There may be rows with insertion points, in
which nothing is left. -/
structure RowsExpanded (driver : Driver σ) (strip : Bool) (S : NodeId → Prop) (root T : NodeId) (prepared : Document)
    (directive : Directive) (t : Block.Template) (I : Forest Block.Template) (l r : List NodeId) (w : Workspace σ)
    (groups : List (List NodeId)) (d : Document) : Prop where
  upright : Upright S root T d
  rows_eq : d.unmarked (d.childrenNamed T Word.row) =
    prepared.rowsAmong l ++ (d.rowsAmong groups.flatten ++ prepared.rowsAmong r)
  bare : ∀ n ∈ d.children T, d.attribute? n Word.insertionAttribute ≠ none → d.children n = []
  plain : PlainRows d (prepared.rowsAmong l ++ prepared.rowsAmong r ++ groups.flatten)
  kept : ∀ n ∈ prepared.rowsAmong l ++ prepared.rowsAmong r, d.rowShape n = prepared.rowShape n
  shapes_eq : ∀ g ∈ groups, (d.rowsAmong g).map d.rowShape =
    (prepared.rowsAmong t.content).map prepared.rowShape
  made : ∀ k g, groups[k]? = some g → MadeForItem driver strip t I directive w k g (d.treesAt g)

section Expand

variable {driver : Driver σ} {strip : Bool} {t t' : Block.Template} {I : Forest Block.Template} {o c : Marker}
  {l r u v mids : List NodeId} {first last : NodeId}

/-- How the children of `T` are when the groups `mids` have been put behind an anchor between `u` and `v`, which was
then taken out: `d₄` and `d` are the document before the first step and before the last one. -/
structure GroupsLeft (S : NodeId → Prop) (root T : NodeId) (d₄ d d' : Document) (u mids v : List NodeId) : Prop where
  upright : Upright S root T d'
  rows_eq : d'.childrenNamed T Word.row = d'.rowsAmong (u ++ (mids ++ v))
  mem : ∀ n ∈ d'.children T, n ∈ u ++ (mids ++ v)
  treeAt_old : ∀ n ∈ u ++ v, d'.treeAt n = d₄.treeAt n
  treeAt_new : ∀ n ∈ mids, d'.treeAt n = d.treeAt n

/-- The anchor of the groups is taken out. -/
theorem PutBehind.groupsLeft {d₄ : Document} {found : List NodeId} {cursor : NodeId}
    (h : PutBehind d₄ d T A u v mids found cursor) (hup : Upright S root T d₄)
    (hA : d₄.attribute? A Word.insertionAttribute ≠ none) (hc : d₄.children T = u ++ A :: v) (strip : Bool) :
    GroupsLeft S root T d₄ d (Block.removeAnchor strip A d) u mids v := by
  have wf := hup.wellFormed
  have hmark : d.attribute? A Word.insertionAttribute ≠ none := by
    rwa [attribute?, h.changes.label?_eq A (wf.mem_ids_of_mem_children (by simp [hc] : A ∈ d₄.children T))]
  obtain ⟨hupright, hrows, hmem, htrees⟩ := (hup.changesChildren h.changes).removeAnchor hmark h.children_eq strip
  refine ⟨hupright, hrows, hmem, fun n hn => ?_, fun n hn => htrees n (by simp [hn])⟩
  have hchild : n ∈ d₄.children T := by
    rw [hc]
    simp only [List.mem_append, List.mem_cons] at hn ⊢
    tauto
  rw [htrees n (by simp only [List.mem_append] at hn ⊢; tauto)]
  exact h.changes.treeAt_eq wf (wf.mem_ids_of_mem_children hchild) (wf.not_mem_treeAt_of_mem_children hchild)

/-- The children without insertion points. -/
theorem GroupsLeft.unmarked_eq {d₄ : Document} {found ls rs : List NodeId} {cursor : NodeId}
    (h : GroupsLeft S root T d₄ d d' u mids v) (hput : PutBehind d₄ d T A u v mids found cursor)
    (hu : d₄.rowsAmong u = ls) (hv : d₄.rowsAmong v = last :: rs) (hplain : PlainRows d' (ls ++ rs))
    (hlast : d₄.attribute? last Word.insertionAttribute ≠ none) :
    d'.unmarked (d'.childrenNamed T Word.row) = ls ++ (d'.rowsAmong found ++ rs) := by
  have hmem : last ∈ v := List.mem_of_mem_filter (hv ▸ List.mem_cons_self ..)
  have hold : d'.rowsAmong (u ++ (mids ++ v)) = ls ++ (d'.rowsAmong mids ++ last :: rs) := by
    rw [rowsAmong, List.filter_append, List.filter_append, ← rowsAmong, ← rowsAmong, ← rowsAmong,
      rowsAmong_congr fun n hn => h.treeAt_old n (List.mem_append_left _ hn),
      rowsAmong_congr fun n hn => h.treeAt_old n (List.mem_append_right _ hn), hu, hv]
  have hnew : d'.unmarked (d'.rowsAmong mids) = d'.rowsAmong found := by
    rw [unmarked_rowsAmong, unmarked_congr h.treeAt_new, hput.unmarked_eq]
  rw [h.rows_eq, hold, unmarked, List.filter_append, List.filter_append, ← unmarked, ← unmarked, hnew,
    PlainRows.unmarked_eq fun n hn => hplain n (List.mem_append_left _ hn), List.filter_cons_of_neg, ← unmarked,
    PlainRows.unmarked_eq fun n hn => hplain n (List.mem_append_right _ hn)]
  rw [attribute?, label?, h.treeAt_old last (List.mem_append_right _ hmem), ← label?, ← attribute?]
  simpa using hlast

/-- The children with insertion points have nothing in them. -/
theorem GroupsLeft.bare {d₄ : Document} {found : List NodeId} {cursor : NodeId}
    (h : GroupsLeft S root T d₄ d d' u mids v) (hput : PutBehind d₄ d T A u v mids found cursor)
    (hold : ∀ n ∈ u ++ v, d₄.attribute? n Word.insertionAttribute ≠ none → d₄.children n = []) :
    ∀ n ∈ d'.children T, d'.attribute? n Word.insertionAttribute ≠ none → d'.children n = [] := by
  have hsame : ∀ {n} {d₁ : Document}, d'.treeAt n = d₁.treeAt n →
      (d₁.attribute? n Word.insertionAttribute ≠ none → d₁.children n = []) →
      d'.attribute? n Word.insertionAttribute ≠ none → d'.children n = [] := fun he hbare hmark => by
    rw [attribute?, label?, he] at hmark
    exact (children_of_treeAt he).trans (hbare hmark)
  intro n hn
  by_cases hmid : n ∈ mids
  · exact hsame (h.treeAt_new n hmid) (hput.bare n hmid)
  · have huv : n ∈ u ++ v := by
      have := h.mem n hn
      simp only [List.mem_append] at this ⊢
      tauto
    exact hsame (h.treeAt_old n huv) (hold n huv)

/-- The rows when the groups have been put in. -/
theorem RowsTaken.expanded {d₃ d₄ : Document} {s : σ} {groups : List (List NodeId)} {cursor : NodeId}
    (h : RowsTaken S root T prepared d₃ o c t t' I l r first last) (hd : d₃.Retouches (¬ S ·) d₄)
    (hl : d₃.Leaves d₄ (InContents d₃ (tree t (tree t' nil)))) (hc : d₄.children T = u ++ first :: v)
    (hu : d₄.rowsAmong u = prepared.rowsAmong l) (hv : d₄.rowsAmong v = last :: prepared.rowsAmong r)
    (hgroups : RowGroups driver strip t' I o.directive T first u v ⟨d₄, s⟩ groups mids cursor d) :
    RowsExpanded driver strip S root T prepared o.directive t' I l r ⟨d₃, s⟩ groups
      (Block.removeAnchor strip first d) := by
  have wf₄ := hd.grows.wellFormed
  have hput := hgroups.put
  have wf := hput.changes.grows.wellFormed
  have hleft := hput.groupsLeft (h.upright_taken.retouches hd) (h.attribute?_first hd) hc strip
  have wf' := hleft.upright.wellFormed
  -- The rows that were in the table before, and those of the groups.
  have hold : ∀ n ∈ prepared.rowsAmong l ++ prepared.rowsAmong r,
      (Block.removeAnchor strip first d).treeAt n = d₄.treeAt n := fun n hn => hleft.treeAt_old n <| by
    rcases List.mem_append.mp hn with hn | hn
    · exact List.mem_append_left _ (List.mem_of_mem_filter (hu ▸ hn))
    · exact List.mem_append_right _ (List.mem_of_mem_filter (hv ▸ List.mem_cons_of_mem _ hn))
  have hnew : ∀ g ∈ groups, ∀ n ∈ g, (Block.removeAnchor strip first d).treeAt n = d.treeAt n := fun g hg n hn =>
    hleft.treeAt_new n (hgroups.mem_mids hg hn)
  have hrow : ∀ n ∈ prepared.rowsAmong l ++ prepared.rowsAmong r, n ∈ prepared.childrenNamed T Word.row :=
    fun n hn => by
      rw [mem_childrenNamed, h.children_eq]
      rcases List.mem_append.mp hn with hn | hn <;> obtain ⟨hmem, hname⟩ := List.mem_filter.mp hn <;>
        simp [hmem, hname]
  have hplain : PlainRows (Block.removeAnchor strip first d) (prepared.rowsAmong l ++ prepared.rowsAmong r) :=
    (h.plainRows hd fun n hn => (mem_childrenNamed.mp (hrow n hn)).1).congr (map_outline_eq wf₄ wf' hold)
  have hbare : ∀ n ∈ u ++ v, d₄.attribute? n Word.insertionAttribute ≠ none → d₄.children n = [] :=
    fun n hn hmark => by
      have hnd := wf₄.nodup_children T
      rw [hc, List.nodup_middle, List.nodup_cons] at hnd
      have hchild : n ∈ d₄.children T := by
        rw [hc]
        simp only [List.mem_append, List.mem_cons] at hn ⊢
        tauto
      rcases h.eq_bound hd hchild hmark with rfl | rfl
      · exact absurd hn hnd.1
      · exact h.children_last hd
  refine ⟨hleft.upright, hleft.unmarked_eq hput hu hv hplain (h.attribute?_last hd), hleft.bare hput hbare,
    fun n hn => ?_, fun n hn => ?_, fun g hg => ?_, fun k g hk => ?_⟩
  · rcases List.mem_append.mp hn with hn | hn
    · exact hplain n hn
    · obtain ⟨g, hg, hn⟩ := List.mem_flatten.mp hn
      exact (hgroups.plain g hg).congr (map_outline_eq wf wf' (hnew g hg)) n hn
  · rw [rowShape_congr (wf₄.outline_eq wf' (hold n hn))]
    exact h.rowShape_eq hd (hrow n hn)
  · rw [map_rowShape_congr (map_outline_eq wf wf' (hnew g hg)), hgroups.shapes_eq g hg]
    exact h.sectionShapes_eq hd
  · obtain ⟨w₁, w₂, henter, hcontent, hrun, hout⟩ := hgroups.made k g hk
    refine ⟨w₁, w₂, henter, hcontent.trans (treesAt_congr fun n hn => ?_), hrun,
      hout.trans (treesAt_congr fun n hn => ?_)⟩
    · exact h.treeAt_eq hl (List.mem_append_right _ hn)
    · exact (hnew g (List.mem_of_getElem? hk) n hn).symm

/-- The block cannot be expanded if its anchor is not there. -/
theorem RowsOut.below_of_expandVia {settings : Settings} {w : Workspace σ} {s : σ}
    (h : RowsOut T prepared d o c t t' I l r first last) (hdriver : driver.RewritesPlaceholders)
    (wf : prepared.WellFormed) (hT : T ∈ prepared.ids) (hroot : root ∈ prepared.ids) (hne : T ≠ root)
    (hrun : expandVia Block.resolveAnchor settings driver root (tree t (tree t' I)) ⟨d, s⟩ = .ok () w) :
    prepared.IsBelow T root := by
  by_contra hnot
  have hruns : Runs (expandVia Block.resolveAnchor settings driver root (tree t (tree t' I))) ⟨d, s⟩
      (fun _ _ => False) fun _ _ => True := by
    rw [expandVia, expandAllVia_resolveAnchor]
    refine Runs.bind (Q := fun _ w => d.Retouches (fun _ => True) w.document) (Runs.ask ((hdriver root ⟨d, s⟩).mono
      (fun _ _ hns => hns.elim fun _ hns => hns.retouches h.emptied.grows.wellFormed.textsLoose)
      fun _ _ _ => trivial)) ?_
    rintro - w hd
    rw [tree, Block.expandAll, h.kind_eq, Block.Selection.all, if_pos rfl, ← expandOneVia_resolveAnchor]
    refine Runs.bind (Q := fun _ _ => False) (Runs.bind (Q := fun _ _ => False) ?_ fun _ _ h' => h'.elim)
      fun _ _ h' => h'.elim
    rw [Runs, resolveAnchor_eq]
    cases hfound : t.anchor.resolve? w.document root with
    | none => trivial
    | some n => exact hnot (h.below_of_resolve wf hT hroot hne hd hfound)
  rw [Runs, hrun] at hruns
  exact hruns

/-- Values are filled in, and the block is expanded. -/
theorem RowsTaken.runs_expandVia (settings : Settings) {s : σ} {count : Nat}
    (h : RowsTaken S root T prepared d o c t t' I l r first last) (hdriver : driver.RewritesPlaceholders)
    (hscope : driver.KeepsScope) (hplan : driver.plan o.directive s = .ok (.repeated count) s) :
    Runs (expandVia Block.resolveAnchor settings driver root (tree t (tree t' I))) ⟨d, s⟩
      (fun _ w => ∃ groups, groups.length = count ∧
        RowsExpanded driver settings.stripEmptyParagraphs S root T prepared o.directive t' I l r ⟨d, s⟩ groups
          w.document)
      fun _ _ => True := by
  have hup := h.upright_taken
  rw [expandVia, expandAllVia_resolveAnchor]
  refine Runs.bind (Q := fun _ w => w.state = s ∧ d.Retouches (¬ S ·) w.document ∧
    d.Leaves w.document (InContents d (tree t (tree t' nil)))) ?_ ?_
  · have hleaves := Logged.leaves_substitute (w := ⟨d, s⟩) hdriver.staysBelow
      (h.detached_contents.closed h.wellFormed) h.wellFormed hup.root_mem_ids h.not_inContents (.inl hup.not_text)
    refine Runs.ask ((hdriver root ⟨d, s⟩).traced.mono ?_ fun _ _ _ => trivial)
    rintro _ w' ⟨hrun, ns, hns⟩
    rw [Logged.documentAfter_ask, hrun] at hleaves
    exact ⟨hscope.substitute_ok hrun, hns.retouches hup.textsLoose, hleaves⟩
  · rintro - ⟨d', s'⟩ ⟨rfl, hd, hl⟩
    obtain ⟨u, v, hc, hu, hv⟩ := h.exists_children hd
    have hdirective : t.block.start.directive = o.directive := by rw [h.block_eq]
    refine (runs_expandAll_rows hdriver hscope (h.rowBlock hd hl) hc h.kind_eq (fun n => h.eq_first hd)
      (hdirective ▸ hplan)).mono ?_ fun _ _ h' => h'
    rintro - w ⟨groups, mids, n, d'', hlength, hgroups, hw⟩
    rw [hw]
    exact ⟨groups, hlength, h.expanded hd hl hc hu hv (hdirective ▸ hgroups)⟩

end Expand

/-! ## The rows in the end -/

/-- Whether the rows of the table `T` are the same in `d` and `d'`, but for those from number `i` to number `j`, in
place of which there are groups with as many rows, and as many cells in each of them. -/
structure RepeatsRows (root : NodeId) (d d' : Document) (T : NodeId) (i j : Nat) (groups : List (List NodeId)) :
    Prop where
  below : d'.IsBelow T root
  rows_eq : d'.childrenNamed T Word.row =
    (d.childrenNamed T Word.row).take i ++ (groups.flatten ++ (d.childrenNamed T Word.row).drop (j + 1))
  shapes_eq : ∀ g ∈ groups,
    g.map d'.rowShape = (((d.childrenNamed T Word.row).take (j + 1)).drop i).map d.rowShape
  kept : ∀ n ∈ (d.childrenNamed T Word.row).take i ++ (d.childrenNamed T Word.row).drop (j + 1),
    d'.rowShape n = d.rowShape n

/-- Whether `rows` in `d'` are the content of `t` in `d`, expanded while `item` was the innermost scope. -/
def ExpandedFor (b : ModelBinding) (strip : Bool) (t : Block.Template) (I : Forest Block.Template) (d : Document)
    (s : Scopes) (item : Json) (rows : List NodeId) (d' : Document) : Prop :=
  ∃ w₁ w₂, w₁.state = s.push item ∧ w₁.document.treesAt t.content = d.treesAt t.content ∧
    Block.instantiate b.driver (Block.expandAll strip b.driver I 0) t false .all w₁ = .ok rows w₂ ∧
    d'.treesAt rows = w₂.document.treesAt rows

section Process

variable {settings : Settings} {b : ModelBinding} {s : Scopes} {items : List Json} {i j : Nat} {o c : Marker}
  {inner : Forest Block}

theorem ModelBinding.plan_of_array {directive : Directive} (hkind : directive.kind = .collectionStart)
    (hitems : resolve s directive.expression.toList = .ok (.array items)) :
    b.driver.plan directive s = .ok (.repeated items.length) s := by
  show ModelBinding.answer (b.plan s directive) s = _
  rw [ModelBinding.plan, hkind, hitems]
  rfl

theorem ModelBinding.item_of_array {directive : Directive} {k : Nat} {item : Json}
    (hitems : resolve s directive.expression.toList = .ok (.array items)) (hk : items[k]? = some item) :
    b.item s directive k = .ok item := by
  rw [ModelBinding.item, hitems]
  simp only [bind, Except.bind, hk]
  rfl

/-- A row is made for an item while that is the innermost scope. -/
theorem MadeForItem.expandedFor {strip : Bool} {t : Block.Template} {I : Forest Block.Template}
    {directive : Directive} {d d' : Document} {k : Nat} {item : Json} {g : List NodeId}
    (h : MadeForItem b.driver strip t I directive ⟨d, s⟩ k g (d'.treesAt g))
    (hitems : resolve s directive.expression.toList = .ok (.array items)) (hk : items[k]? = some item) :
    ExpandedFor b strip t I d s item g d' := by
  obtain ⟨w₁, w₂, henter, hcontent, hrun, htrees⟩ := h
  obtain ⟨item', hitem, hs⟩ := exists_of_enterItem_eq_ok henter
  rw [ModelBinding.item_of_array hitems hk] at hitem
  cases hitem
  exact ⟨w₁, w₂, hs, hcontent, hrun, htrees.symm⟩

/-- The cleanup leaves the rows of a table that are not bounds of blocks. -/
theorem RowsExpanded.repeatsRows {driver : Driver σ} {strip : Bool} {directive : Directive} {t : Block.Template}
    {I : Forest Block.Template} {l r : List NodeId} {w : Workspace σ} {groups : List (List NodeId)}
    (h : RowsExpanded driver strip S root T prepared directive t I l r w groups d') (wf : d.WellFormed)
    (hd : d.Retouches (fun _ => True) prepared)
    (hl : prepared.rowsAmong l = (d.childrenNamed T Word.row).take i)
    (hmid : prepared.rowsAmong t.content = ((d.childrenNamed T Word.row).take (j + 1)).drop i)
    (hr : prepared.rowsAmong r = (d.childrenNamed T Word.row).drop (j + 1)) :
    RepeatsRows root d (d'.finish strip root) T i j (groups.map d'.rowsAmong) := by
  obtain ⟨hup, hrows, hshape⟩ := h.upright.finish_rows h.bare strip
  -- The shape of a row is that when all blocks have been expanded.
  have hfinish : ∀ n ∈ prepared.rowsAmong l ++ (d'.rowsAmong groups.flatten ++ prepared.rowsAmong r),
      (d'.finish strip root).rowShape n = d'.rowShape n := fun n hn => by
    refine hshape _ h.plain n ?_ ?_
    · simp only [List.mem_append] at hn ⊢
      exact hn.elim (fun hn => .inl (.inl hn)) fun hn => hn.elim (fun hn => .inr (List.mem_of_mem_filter hn))
        fun hn => .inl (.inr hn)
    · rw [← h.rows_eq] at hn
      exact (mem_childrenNamed.mp (List.mem_of_mem_filter hn)).2
  have hold : ∀ n ∈ d.childrenNamed T Word.row, prepared.rowShape n = d.rowShape n := fun n hn =>
    hd.rowShape_eq wf (mem_childrenNamed.mp hn).2
  refine ⟨hup.below, ?_, fun rows hmem => ?_, fun n hn => ?_⟩
  · rw [hrows, h.rows_eq, hl, hr, rowsAmong, List.filter_flatten]
    rfl
  · obtain ⟨g, hg, rfl⟩ := List.mem_map.mp hmem
    have hgroup : ∀ n ∈ d'.rowsAmong g, n ∈ d'.rowsAmong groups.flatten := fun n hn =>
      List.mem_filter.mpr ⟨List.mem_flatten.mpr ⟨g, hg, List.mem_of_mem_filter hn⟩, (List.mem_filter.mp hn).2⟩
    rw [List.map_congr_left fun n hn => hfinish n (by simp [hgroup n hn]), h.shapes_eq g hg, hmid]
    exact List.map_congr_left fun n hn => hold n (List.mem_of_mem_take (List.mem_of_mem_drop hn))
  · have hmem : n ∈ prepared.rowsAmong l ++ prepared.rowsAmong r := by rwa [hl, hr]
    rw [hfinish n ((List.mem_append.mp hmem).elim (List.mem_append_left _)
      fun hn => List.mem_append_right _ (List.mem_append_right _ hn)), h.kept n hmem]
    exact hold n ((List.mem_append.mp hn).elim List.mem_of_mem_take List.mem_of_mem_drop)

/-- A block around rows of a table repeats whole rows. -/
theorem process_repeats_rows {w' : Workspace Scopes} (h : AroundRows settings (bodyOf d) d T i j o c inner)
    (hinner : InParagraphs ((prepare settings (bodyOf d) d).2.IsBelow · T) (prepare settings (bodyOf d) d).2 inner)
    (hitems : resolve s o.directive.expression.toList = .ok (.array items))
    (hrun : process settings b.driver ⟨d, s⟩ = .ok () w') :
    ∃ t t' I d₀ w₁, ∃ groups : List (List NodeId),
      readBlocks settings (bodyOf d) ⟨d, s⟩ = .ok (tree t (tree t' I)) ⟨d₀, s⟩ ∧
      d₀.rowsAmong t'.content = ((d.childrenNamed T Word.row).take (j + 1)).drop i ∧
      expandBlocks settings b.driver (bodyOf d) ⟨d, s⟩ = .ok () w₁ ∧
      w'.document = w₁.document.finish settings.stripEmptyParagraphs (bodyOf d) ∧
      groups.length = items.length ∧
      (∀ (k : Nat) g item, groups[k]? = some g → items[k]? = some item →
        ExpandedFor b settings.stripEmptyParagraphs t' I d₀ s item g w₁.document) ∧
      RepeatsRows (bodyOf d) d w'.document T i j (groups.map w₁.document.rowsAmong) := by
  have hrun : processAt settings b.driver (bodyOf d) ⟨d, s⟩ = .ok () w' := hrun
  rw [processAt_eq] at hrun
  split at hrun
  · cases hrun
  next Ts w₀ hread =>
  split at hrun
  · cases hrun
  next w₁ hexpand =>
  obtain ⟨B, B', d₂, d₃, hstages, rfl, -⟩ := exists_stages hread
  obtain ⟨t, t', I, l, r, first, last, rfl, hout, hl, hmid, hr⟩ := h.exists_taken hinner hstages
  -- The anchor was found, so the table is still below the body.
  have hbelow := hout.below_of_expandVia b.rewritesPlaceholders h.wellFormed_prepare
    (h.retouches.grows.mem_ids T h.mem_ids) (h.retouches.grows.mem_ids _ (bodyOf_mem_ids h.wellFormed))
    (fun he => h.wellFormed.not_isBelow_self _ (he ▸ h.below)) hexpand
  have htaken : RowsTaken _ _ _ _ _ _ _ _ _ _ _ _ _ _ :=
    { hout with upright := h.upright hbelow, above := fun _ hn => hn.1 }
  have hruns := htaken.runs_expandVia settings b.rewritesPlaceholders b.keepsScope
    (ModelBinding.plan_of_array (b := b) (h.kind_eq hinner hstages) hitems)
  rw [Runs, hexpand] at hruns
  obtain ⟨groups, hlength, hrows⟩ := hruns
  have hfinish : w'.document = w₁.document.finish settings.stripEmptyParagraphs (bodyOf d) := by
    rw [EStateM.Result.ok.injEq] at hrun
    rw [← hrun.2]
  refine ⟨t, t', I, d₃, w₁, groups, hread, ?_, ?_, hfinish, hlength, fun k g item hg hitem => ?_,
    hfinish ▸ hrows.repeatsRows h.wellFormed h.retouches hl hmid hr⟩
  · rw [htaken.emptied.rowsAmong_eq fun n hn => by simp [htaken.children_eq, hn], hmid]
  · rw [expandBlocks_of_readBlocks hread, hexpand]
  · exact (hrows.made k g hg).expandedFor hitems hitem

end Process

/-! ## Tables that are written down -/

/-- The marker of a directive of this kind in the text `node`. -/
def markerAt (node : Nat) (kind : Directive.Kind) (position : Nat) (text expression : String) : Marker :=
  ⟨⟨node⟩, ⟨kind, position, text, expression, none, []⟩⟩

/-- One condition without an alternative. -/
def conditionFrom (o c : Marker) : Forest Block :=
  tree ⟨.conditionStart, o, c⟩ (tree ⟨.content, o, c⟩ nil)

theorem inParagraphs_conditionFrom {G : NodeId → Prop} {P : NodeId} (hP : d.isNamed P Word.paragraph = true)
    (hG : G P) (ho : d.IsBelow o.node P) (hc : d.IsBelow c.node P) : InParagraphs G d (conditionFrom o c) := by
  intro x hx
  have hx : x.start = o ∧ x.stop = c := by
    simp only [conditionFrom, tree, toList, List.append_nil, List.mem_cons, List.not_mem_nil, or_false] at hx
    rcases hx with rfl | rfl <;> exact ⟨rfl, rfl⟩
  exact ⟨P, hP, hG, hx.1 ▸ ho, hx.2 ▸ hc⟩

/-- A table with a block around its second and its third row, and a condition in a paragraph there. -/
def itemTable : Document :=
  Word.documentOf (Word.tableOf [["a"], ["{{#A}}{{?c}}x{{/}}", "{{n}}"], ["y{{/A}}"], ["b"]])

/-- The condition in it. -/
def itemCondition : Forest Block :=
  conditionFrom (markerAt 32 .conditionStart 7 "{{?c}}" "c") (markerAt 35 .conditionEnd 14 "{{/}}" "")

theorem aroundRows_itemTable : AroundRows {} (bodyOf itemTable) itemTable ⟨1⟩ 1 2
    (markerAt 12 .collectionStart 1 "{{#A}}" "A") (markerAt 23 .collectionEnd 25 "{{/A}}" "A") itemCondition where
  wellFormed := wellFormed_ofTree ..
  pristine := by decide +kernel
  table := by decide
  below := (wellFormed_ofTree ..).mem_ancestors_iff_isBelow.mp (by decide +kernel)
  nest_eq := by decide +kernel
  le := by decide
  spans := by
    have hd := (prepare_retouches (d := itemTable) {} (bodyOf itemTable) (wellFormed_ofTree ..)).1
    have wf := hd.grows.wellFormed
    exact ⟨⟨8⟩, ⟨19⟩, by decide +kernel, by decide +kernel, .rows (by decide)
      (wf.mem_ancestors_iff_isBelow.mp (by decide +kernel)) (wf.mem_ancestors_iff_isBelow.mp (by decide +kernel))⟩

theorem process_repeats_rows_itemTable :
    let s := Scopes.ofModel (.object [("c", .bool true), ("A", .array
      [.object [("n", .string "1")], .object [("n", .string "2")]])])
    ∃ w' groups, process {} (ModelBinding.driver {}) ⟨itemTable, s⟩ = .ok () w' ∧ groups.length = 2 ∧
      RepeatsRows (bodyOf itemTable) itemTable w'.document ⟨1⟩ 1 2 groups := by
  intro s
  obtain ⟨_, w', hrun⟩ := exists_of_errorOf?_eq_none
    (r := process {} (ModelBinding.driver {}) ⟨itemTable, s⟩) (by decide +kernel)
  have wf := aroundRows_itemTable.wellFormed_prepare
  have hinner := inParagraphs_conditionFrom (d := (prepare {} (bodyOf itemTable) itemTable).2)
    (G := ((prepare {} (bodyOf itemTable) itemTable).2.IsBelow · ⟨1⟩)) (P := ⟨10⟩) (by decide +kernel)
    (wf.mem_ancestors_iff_isBelow.mp (by decide +kernel))
    (o := markerAt 32 .conditionStart 7 "{{?c}}" "c") (wf.mem_ancestors_iff_isBelow.mp (by decide +kernel))
    (c := markerAt 35 .conditionEnd 14 "{{/}}" "") (wf.mem_ancestors_iff_isBelow.mp (by decide +kernel))
  have hitems : resolve s ['A'] = .ok (.array [.object [("n", .string "1")], .object [("n", .string "2")]]) := by
    rfl
  obtain ⟨t, t', I, d₀, w₁, groups, -, -, -, -, hlength, -, hrows⟩ :=
    process_repeats_rows (b := {}) aroundRows_itemTable hinner hitems hrun
  exact ⟨w', _, hrun, (List.length_map ..).trans hlength, hrows⟩

/-- A table in a picture in a paragraph, with a block around its rows, and in these a condition from one cell to
another one. -/
def pictureTable : Document :=
  Word.documentOf (tree (.element ⟨Word.paragraph, []⟩) (tree (.element ⟨Word.run, []⟩)
    (tree (.element ⟨"w:pict", []⟩) (Word.tableOf [["{{#A}}x{{?c}}"], ["y{{/}}{{/A}}"]]))))

/-- The condition in it. -/
def pictureCondition : Forest Block :=
  conditionFrom (markerAt 18 .conditionStart 7 "{{?c}}" "c") (markerAt 15 .conditionEnd 14 "{{/}}" "")

theorem aroundRows_pictureTable : AroundRows {} (bodyOf pictureTable) pictureTable ⟨4⟩ 0 1
    (markerAt 9 .collectionStart 0 "{{#A}}" "A") (markerAt 26 .collectionEnd 19 "{{/A}}" "A") pictureCondition where
  wellFormed := wellFormed_ofTree ..
  pristine := by decide +kernel
  table := by decide
  below := (wellFormed_ofTree ..).mem_ancestors_iff_isBelow.mp (by decide +kernel)
  nest_eq := by decide +kernel
  le := by decide
  spans := by
    have hd := (prepare_retouches (d := pictureTable) {} (bodyOf pictureTable) (wellFormed_ofTree ..)).1
    have wf := hd.grows.wellFormed
    exact ⟨⟨5⟩, ⟨11⟩, by decide +kernel, by decide +kernel, .rows (by decide)
      (wf.mem_ancestors_iff_isBelow.mp (by decide +kernel)) (wf.mem_ancestors_iff_isBelow.mp (by decide +kernel))⟩

/-- A table in a proofreading mark, with a block around its rows. -/
def markedTable : Document :=
  Word.documentOf (tree (.element ⟨Word.proofError, []⟩) (Word.tableOf [["{{#A}}x"], ["y{{/A}}"]]))

/-- If a condition is in one paragraph with the table around it, all rows of the table are lost. So they are if the
table is in a mark. -/
theorem rows_lost_with_what_is_around :
    let s := Scopes.ofModel (.object [("c", .bool false), ("A", .array [.null, .null])])
    (AroundRows {} (bodyOf pictureTable) pictureTable ⟨4⟩ 0 1 (markerAt 9 .collectionStart 0 "{{#A}}" "A")
        (markerAt 26 .collectionEnd 19 "{{/A}}" "A") pictureCondition ∧
      InParagraphs (fun _ => True) (prepare {} (bodyOf pictureTable) pictureTable).2 pictureCondition ∧
      errorOf? (process {} (ModelBinding.driver {}) ⟨pictureTable, s⟩) = none ∧
      (documentAfter (process {} (ModelBinding.driver {}) ⟨pictureTable, s⟩)).childrenNamed ⟨4⟩ Word.row = []) ∧
    markedTable.isNamed ⟨2⟩ Word.table = true ∧ markedTable.IsBelow ⟨2⟩ (bodyOf markedTable) ∧
      (Directive.findAll (markedTable.innerText (bodyOf markedTable))).map Directive.kind =
        [.collectionStart, .collectionEnd] ∧
      errorOf? (process {} (ModelBinding.driver {}) ⟨markedTable, s⟩) = none ∧
      (documentAfter (process {} (ModelBinding.driver {}) ⟨markedTable, s⟩)).children (bodyOf markedTable) = [] := by
  intro s
  have wf := aroundRows_pictureTable.wellFormed_prepare
  refine ⟨⟨aroundRows_pictureTable, ?_, by decide +kernel, by decide +kernel⟩, by decide, ?_, by decide +kernel,
    by decide +kernel, by decide +kernel⟩
  · exact inParagraphs_conditionFrom (P := ⟨1⟩) (by decide +kernel) trivial
      (wf.mem_ancestors_iff_isBelow.mp (by decide +kernel)) (wf.mem_ancestors_iff_isBelow.mp (by decide +kernel))
  · exact (wellFormed_ofTree ..).mem_ancestors_iff_isBelow.mp (by decide +kernel)

end WordTemplate
