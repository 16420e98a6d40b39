import WordTemplate.Proofs.Block.RowInstances
import WordTemplate.Proofs.Block.Session

/-!
# Rows for every item

A block around rows has its bounds in the table and its rows beside it. For every item of its collection one
more group of rows comes behind those that are there already, made from the section while the item is current,
and a row with an insertion point that nothing is in.

* `PutBehind.insert`: one more group.
* `runs_insertItem_rows`, `runs_insertItems_rows`: the groups for one item and for all of them.
* `runs_expandAll_rows`: the block is expanded, and its anchor taken out.
-/

namespace WordTemplate

open Xml Forest Binding Xml.Document

variable {σ : Type} {D d d' d'' : Document} {n T A cursor : NodeId} {u v mids found rows ns : List NodeId}

/-! ## Groups of rows behind an anchor -/

/-- Whether the nodes `mids` have been put behind the anchor `A`, which was between the children `u` and `v` of
`T`, the last of them is `cursor`, and those without insertion points are `found`. -/
structure PutBehind (D d : Document) (T A : NodeId) (u v mids found : List NodeId) (cursor : NodeId) : Prop where
  changes : ChangesChildren T D d
  children_eq : d.children T = u ++ A :: (mids ++ v)
  cursor_eq : ∃ l, A :: mids = l ++ [cursor]
  unmarked_eq : d.unmarked mids = found
  bare : ∀ n ∈ mids, d.attribute? n Word.insertionAttribute ≠ none → d.children n = []

theorem PutBehind.start (wf : D.WellFormed) (hc : D.children T = u ++ A :: v) : PutBehind D D T A u v [] [] A :=
  ⟨.refl wf, hc, ⟨[], rfl⟩, rfl, nofun⟩

theorem RowGroup.unmarked_eq {shapes : List Outline} {trees : Forest Node}
    (h : RowGroup d shapes trees rows ns) : d.unmarked ns = rows := by
  obtain ⟨⟨e, rfl, hmark, -⟩, hplain, -⟩ := h
  have he : d.unmarked [e] = [] := by
    rw [unmarked, List.filter_cons_of_neg]
    · rfl
    · simpa using hmark
  rw [unmarked, List.filter_append, ← unmarked, ← unmarked, hplain.unmarked_eq, he, List.append_nil]

/-- A group of rows is put behind the others. -/
theorem PutBehind.insert {shapes : List Outline} {trees : Forest Node}
    (h : PutBehind D d T A u v mids found cursor) (hd : d.Leaves d' (· ∈ d.ids)) (hns : Logged.Parts d d' ns)
    (hgroup : RowGroup d' shapes trees rows ns) :
    PutBehind D (d'.insertAllAfter cursor ns).2 T A u v (mids ++ ns) (found ++ rows)
        (d'.insertAllAfter cursor ns).1 ∧
      RowGroup (d'.insertAllAfter cursor ns).2 shapes trees rows ns ∧
      ∀ n ∈ mids, (d'.insertAllAfter cursor ns).2.treeAt n = d.treeAt n := by
  have wf := h.changes.grows.wellFormed
  obtain ⟨l, hl⟩ := h.cursor_eq
  have hc : d.children T = (u ++ l) ++ cursor :: v := by
    rw [h.children_eq, ← List.cons_append, hl]
    simp
  obtain ⟨hchanges, hchildren, htrees⟩ := insertParts_children wf hd hns hc
  have hgroup' := hgroup.congr hd.grows.wellFormed hchanges.grows.wellFormed htrees
  have hmids : ∀ n ∈ mids, (d'.insertAllAfter cursor ns).2.treeAt n = d.treeAt n := fun n hn => by
    have hmem : n ∈ d.children T := by simp [h.children_eq, hn]
    exact hchanges.treeAt_eq wf (wf.mem_ids_of_mem_children hmem) (wf.not_mem_treeAt_of_mem_children hmem)
  refine ⟨⟨h.changes.trans hchanges, ?_, ?_, ?_, fun n hn hmark => ?_⟩, hgroup', hmids⟩
  · have hassoc : A :: (mids ++ ns ++ v) = A :: mids ++ (ns ++ v) := by simp
    rw [hchildren, hassoc, hl]
    simp
  · obtain ⟨⟨e, rfl, -, -⟩, -, -⟩ := hgroup
    refine ⟨A :: (mids ++ rows), ?_⟩
    simp [Document.insertAllAfter]
  · rw [unmarked, List.filter_append, ← unmarked, ← unmarked, unmarked_congr hmids, h.unmarked_eq,
      hgroup'.unmarked_eq]
  · rcases List.mem_append.mp hn with hn | hn
    · rw [attribute?, label?, hmids n hn] at hmark
      exact (children_of_treeAt (hmids n hn)).trans (h.bare n hn hmark)
    · obtain ⟨⟨e, rfl, -, hbare⟩, hplain, -⟩ := hgroup'
      rcases List.mem_append.mp hn with hn | hn
      · exact absurd (hplain n hn).1 hmark
      · rwa [List.mem_singleton.mp hn]

/-! ## A block around rows -/

/-- A block around rows of `T` with its one section, when their contents have been taken out. -/
structure RowBlock (d : Document) (T : NodeId) (t t' : Block.Template) (I : Forest Block.Template) : Prop where
  wellFormed : d.WellFormed
  detached : Detached d (tree t (tree t' I))
  bounds : ∃ first last, RowBounds d t.content t'.number first last
  kind_eq : t'.kind = .content
  plain : PlainRows d t'.content
  not_mem : ∀ c ∈ t.content ++ t'.content, T ∉ ids (d.treeAt c)

/-- The shapes of the rows in the section. -/
def sectionShapes (d : Document) (t : Block.Template) : List Outline :=
  (d.rowsAmong t.content).map d.rowShape

namespace RowBlock

variable {t t' : Block.Template} {I : Forest Block.Template} (h : RowBlock d T t t' I)
  (hd : ChangesChildren T d d')
include h

theorem mem_ids {c : NodeId} (hc : c ∈ t.content ++ t'.content) : c ∈ d.ids := by
  rcases List.mem_append.mp hc with hc | hc
  · exact (h.detached t (by simp [tree, toList]) c hc).1
  · exact (h.detached t' (by simp [tree, toList]) c hc).1

include hd

theorem treeAt_eq {c : NodeId} (hc : c ∈ t.content ++ t'.content) : d'.treeAt c = d.treeAt c :=
  hd.treeAt_eq h.wellFormed (h.mem_ids hc) (h.not_mem c hc)

theorem outline_eq : t'.content.map d'.outline = t'.content.map d.outline :=
  map_outline_eq h.wellFormed hd.grows.wellFormed fun _ hc => h.treeAt_eq hd (List.mem_append_right _ hc)

theorem sectionShapes_eq : sectionShapes d' t' = sectionShapes d t' :=
  map_rowShape_congr (h.outline_eq hd)

theorem changes : RowBlock d' T t t' I where
  wellFormed := hd.grows.wellFormed
  detached u hu c hc := by
    obtain ⟨hmem, hnone⟩ := h.detached u hu c hc
    exact ⟨hd.grows.mem_ids c hmem, (hd.parent?_eq c hmem).trans hnone⟩
  bounds := by
    obtain ⟨first, last, hb⟩ := h.bounds
    exact ⟨first, last, hb.congr fun c hc => h.treeAt_eq hd (List.mem_append_left _ hc)⟩
  kind_eq := h.kind_eq
  plain := h.plain.congr (h.outline_eq hd)
  not_mem c hc := h.treeAt_eq hd hc ▸ h.not_mem c hc

end RowBlock

/-! ## The driver's state -/

/-- A driver that only keeps what has been entered ends in the state in which it began. -/
theorem runs_of_acts {α : Type} {driver : Driver σ} {P : Directive → Prop} {m : Step Error σ α} {w : Workspace σ}
    (h : Acts driver P .free m) (hscope : driver.KeepsScope) :
    Runs m w (fun _ w' => w'.state = w.state) fun _ _ => True :=
  (h w).mono (fun _ _ ⟨_, hs⟩ => hscope.eq_of_session hs) fun _ _ _ => trivial

theorem runs_instantiate_state {driver : Driver σ} {t : Block.Template} {I : Forest Block.Template}
    (strip : Bool) (select : Block.Selection) (hscope : driver.KeepsScope) (w : Workspace σ) :
    Runs (Block.instantiate driver (Block.expandAll strip driver I 0) t false select) w
      (fun _ w' => w'.state = w.state) fun _ _ => True :=
  runs_of_acts (P := fun _ => True) (acts_instantiate (fun select scope =>
    (acts_expandAll strip I 0 select scope false).mono fun _ _ => trivial) select) hscope

/-! ## Rows for items -/

section Items

variable {driver : Driver σ} {t t' : Block.Template} {I : Forest Block.Template} {strip : Bool} {w : Workspace σ}

/-- Whether `rows`, with these trees, are an instance of the section `t` that was made while the item `k` was current.
-/
def MadeForItem (driver : Driver σ) (strip : Bool) (t : Block.Template) (I : Forest Block.Template)
    (directive : Directive) (w : Workspace σ) (k : Nat) (rows : List NodeId) (trees : Forest Node) : Prop :=
  ∃ w₁ w₂, driver.enterItem directive k w.state = .ok () w₁.state ∧
    w₁.document.treesAt t.content = w.document.treesAt t.content ∧
    Block.instantiate driver (Block.expandAll strip driver I 0) t false .all w₁ = .ok rows w₂ ∧
    w₂.document.treesAt rows = trees

variable (hdriver : driver.RewritesPlaceholders) (hscope : driver.KeepsScope)
include hdriver hscope

/-- The rows for one item are put behind the others. -/
theorem runs_insertItem_rows (h : RowBlock w.document T t t' I)
    (hput : PutBehind D w.document T A u v mids found cursor) (count k : Nat) :
    Runs (Block.insertItem driver (Block.expandAll strip driver (tree t' I) 0) t count cursor k) w
      (fun n w' => w'.state = w.state ∧ ∃ ns rows trees,
        PutBehind D w'.document T A u v (mids ++ ns) (found ++ rows) n ∧
        RowGroup w'.document (sectionShapes w.document t') trees rows ns ∧
        (∀ n ∈ mids, w'.document.treeAt n = w.document.treeAt n) ∧
        MadeForItem driver strip t' I t.block.start.directive w k rows trees)
      fun _ _ => True := by
  obtain ⟨d, s₀⟩ := w
  obtain ⟨first, last, hb⟩ := h.bounds
  unfold Block.insertItem
  refine Runs.bind (Q := fun _ w₁ => w₁.document = d ∧
    driver.enterItem t.block.start.directive k s₀ = .ok () w₁.state)
    (Runs.ask (runs_onState (fun _ _ hrun => ⟨rfl, hrun⟩) fun _ _ _ => trivial)) ?_
  rintro - ⟨d₁, s⟩ ⟨rfl, hrun⟩
  refine Runs.bind (Q := fun ns w₂ => w₂.state = s₀ ∧ d₁.Leaves w₂.document (· ∈ d₁.ids) ∧
    Logged.Parts d₁ w₂.document ns ∧ ∃ rows trees, MadeRows driver strip t' I ⟨d₁, s⟩ rows trees ∧
      RowGroup w₂.document (sectionShapes d₁ t') trees rows ns) (Runs.thenLeave ?_) ?_
  · have hnew := runs_instantiate_new (w := ⟨d₁, s⟩) strip false (.item (k + 1 == count)) hdriver.staysBelow
      h.detached h.wellFormed
    have hrows := runs_instantiate_section (w := ⟨d₁, s⟩) strip (.item (k + 1 == count)) hdriver hscope
      h.wellFormed h.detached hb h.kind_eq rfl h.plain rfl
    have hstate := runs_instantiate_state (t := t) (I := tree t' I) strip (.item (k + 1 == count)) hscope ⟨d₁, s⟩
    refine ((hnew.and hrows).and hstate).mono ?_ fun _ _ _ => trivial
    rintro ns ⟨d₂, s₂⟩ ⟨⟨⟨hleaves, hparts⟩, hrows⟩, rfl⟩
    exact ⟨hscope.leaveItem hrun, hleaves, hparts, hrows⟩
  · rintro ns w₂ ⟨hs, hleaves, hparts, rows, trees, ⟨w₃, w₄, rfl, hnew, hmade, htrees⟩, hgroup⟩
    obtain ⟨hput', hgroup', hmids⟩ := hput.insert hleaves hparts hgroup
    have hchanges : ChangesChildren T d₁ w₃.document := (ChangesChildren.refl h.wellFormed).leaves hnew
    exact runs_changeGet ⟨hs, ns, rows, trees, hput', hgroup', hmids, w₃, w₄, hrun,
      treesAt_congr fun c hc => h.treeAt_eq hchanges (List.mem_append_right _ hc), hmade, htrees⟩

/-- Whether there is a group of rows for every item, behind the anchor. -/
structure RowGroups (driver : Driver σ) (strip : Bool) (t' : Block.Template) (I : Forest Block.Template)
    (directive : Directive) (T A : NodeId) (u v : List NodeId) (w : Workspace σ) (groups : List (List NodeId))
    (mids : List NodeId) (cursor : NodeId) (d : Document) : Prop where
  put : PutBehind w.document d T A u v mids groups.flatten cursor
  plain : ∀ g ∈ groups, PlainRows d g
  shapes_eq : ∀ g ∈ groups, (d.rowsAmong g).map d.rowShape = sectionShapes w.document t'
  made : ∀ k g, groups[k]? = some g → MadeForItem driver strip t' I directive w k g (d.treesAt g)

omit hdriver hscope in
theorem RowGroups.mem_mids {directive : Directive} {groups : List (List NodeId)} {g : List NodeId}
    (h : RowGroups driver strip t' I directive T A u v w groups mids cursor d) (hg : g ∈ groups) (hn : n ∈ g) :
    n ∈ mids := by
  have hmem : n ∈ d.unmarked mids := by
    rw [h.put.unmarked_eq]
    exact List.mem_flatten.mpr ⟨g, hg, hn⟩
  exact (List.mem_filter.mp hmem).1

theorem runs_insertItems_rows (h : RowBlock w.document T t t' I) (hc : w.document.children T = u ++ A :: v)
    (count : Nat) :
    Runs ((List.range count).foldlM
        (Block.insertItem driver (Block.expandAll strip driver (tree t' I) 0) t count) A) w
      (fun n w' => w'.state = w.state ∧ ∃ groups mids, groups.length = count ∧
        RowGroups driver strip t' I t.block.start.directive T A u v w groups mids n w'.document)
      fun _ _ => True := by
  have hloop := runs_foldlM (f := Block.insertItem driver (Block.expandAll strip driver (tree t' I) 0) t count)
    (E := fun _ _ => True) (w := w) (a := A)
    (fun done n w' => w'.state = w.state ∧ ∃ groups mids, groups.length = done.length ∧
      RowGroups driver strip t' I t.block.start.directive T A u v w groups mids n w'.document)
    (List.range count) ⟨rfl, [], [], rfl, .start h.wellFormed hc, nofun, nofun, nofun⟩ ?_
  · simpa using hloop
  rintro done k todo n w' hl ⟨hs, groups, mids, hlength, hgroups⟩
  have hk : k = done.length := by
    have hget := congrArg (·[done.length]?) hl
    have hlen := congrArg List.length hl
    simp only [List.length_range, List.length_append, List.length_cons] at hlen
    rw [List.getElem?_append_right (Nat.le_refl _), Nat.sub_self, List.getElem?_cons_zero,
      List.getElem?_range (by omega), Option.some.injEq] at hget
    exact hget.symm
  have hchanges := hgroups.put.changes
  refine (runs_insertItem_rows hdriver hscope (h.changes hchanges) hgroups.put count k).mono ?_ fun _ _ h' => h'
  rintro cursor w'' ⟨hs', ns, rows, trees, hput, hgroup, hsame, w₁, w₂, henter, hcontent, hrun, htrees⟩
  have hkept : ∀ g ∈ groups, ∀ m ∈ g, w''.document.treeAt m = w'.document.treeAt m := fun g hg m hm =>
    hsame m (hgroups.mem_mids hg hm)
  have hold := fun g hg =>
    map_outline_eq hchanges.grows.wellFormed hput.changes.grows.wellFormed (hkept g hg)
  refine ⟨hs'.trans hs, groups ++ [rows], mids ++ ns, by simp [hlength], ?_, fun g hg => ?_, fun g hg => ?_,
    fun j g hj => ?_⟩
  · simpa using hput
  · rcases List.mem_append.mp hg with hg | hg
    · exact (hgroups.plain g hg).congr (hold g hg)
    · rw [List.mem_singleton.mp hg]
      exact hgroup.plain
  · rcases List.mem_append.mp hg with hg | hg
    · exact (map_rowShape_congr (hold g hg)).trans (hgroups.shapes_eq g hg)
    · rw [List.mem_singleton.mp hg, hgroup.shapes_eq]
      exact h.sectionShapes_eq hchanges
  · rcases Nat.lt_or_ge j groups.length with hlt | hge
    · rw [List.getElem?_append_left hlt] at hj
      rw [treesAt_congr (hkept g (List.mem_of_getElem? hj))]
      exact hgroups.made j g hj
    · rw [List.getElem?_append_right hge, List.getElem?_eq_some_iff] at hj
      obtain ⟨hj, rfl⟩ := hj
      obtain rfl : j = k := by
        rw [List.length_singleton] at hj
        omega
      refine ⟨w₁, w₂, hs ▸ henter, hcontent.trans (treesAt_congr fun c hc => ?_), by simpa using hrun, ?_⟩
      · exact h.treeAt_eq hchanges (List.mem_append_right _ hc)
      · simpa using htrees.trans hgroup.trees_eq.symm

/-- Without items, no rows are put in. -/
theorem runs_insertInstance_skip (h : RowBlock w.document T t t' I) (hc : w.document.children T = u ++ A :: v) :
    Runs (Block.insertInstance driver (Block.expandAll strip driver (tree t' I) 0) t false .otherwise A) w
      (fun n w' => ∃ mids,
        RowGroups driver strip t' I t.block.start.directive T A u v w [] mids n w'.document)
      fun _ _ => True := by
  obtain ⟨first, last, hb⟩ := h.bounds
  have hnew := runs_instantiate_new strip false .otherwise hdriver.staysBelow h.detached h.wellFormed
  have hrows := runs_instantiate_skip strip .otherwise hdriver hscope h.wellFormed h.detached hb h.kind_eq rfl rfl
  refine (hnew.and hrows).bind ?_
  rintro ns w₁ ⟨⟨hleaves, hparts⟩, hgroup⟩
  obtain ⟨hput, -, -⟩ := (PutBehind.start h.wellFormed hc).insert hleaves hparts hgroup
  exact runs_changeGet ⟨_, hput, nofun, nofun, nofun⟩

/-- What is put behind the anchor of a block around rows. -/
theorem runs_insertPlanned_rows (h : RowBlock w.document T t t' I) (hc : w.document.children T = u ++ A :: v)
    (count : Nat) :
    Runs (Block.insertPlanned driver (Block.expandAll strip driver (tree t' I) 0) t A (.repeated count)) w
      (fun n w' => ∃ groups mids, groups.length = count ∧
        RowGroups driver strip t' I t.block.start.directive T A u v w groups mids n w'.document)
      fun _ _ => True := by
  cases count with
  | zero =>
    exact (runs_insertInstance_skip hdriver hscope h hc).mono (fun _ _ ⟨mids, hg⟩ => ⟨[], mids, rfl, hg⟩)
      fun _ _ h' => h'
  | succ count =>
    exact (runs_insertItems_rows hdriver hscope h hc (count + 1)).mono (fun _ _ h' => h'.2) fun _ _ h' => h'

/-- Expanding a block around rows. -/
theorem runs_expandAll_rows {root : NodeId} {count : Nat} (h : RowBlock w.document T t t' I)
    (hc : w.document.children T = u ++ A :: v) (hkind : t.kind = .collectionStart)
    (hresolve : ∀ n, t.anchor.resolve? w.document root = some n → n = A)
    (hplan : driver.plan t.block.start.directive w.state = .ok (.repeated count) w.state) :
    Runs (Block.expandAll strip driver (tree t (tree t' I)) 0 .all root false) w
      (fun _ w' => ∃ groups mids n d, groups.length = count ∧
        RowGroups driver strip t' I t.block.start.directive T A u v w groups mids n d ∧
        w'.document = Block.removeAnchor strip A d)
      fun _ _ => True := by
  have hbody : expandBody driver (Block.expandAll strip driver (tree t' I) 0) t (false || t.kind = .ignoreStart) A =
      Block.ask (Step.onState (driver.plan t.block.start.directive)) >>= fun plan =>
        discard (Block.insertPlanned driver (Block.expandAll strip driver (tree t' I) 0) t A plan) := by
    simp [expandBody, hkind]
  rw [tree, Block.expandAll, hkind, Block.Selection.all, if_pos rfl, ← expandOneVia_resolveAnchor]
  refine Runs.bind ?_ fun _ _ h' => runs_pure h'
  refine Runs.bind (Q := fun n w₁ => n = A ∧ w₁ = w) ?_ ?_
  · rw [Runs, resolveAnchor_eq]
    cases hfound : t.anchor.resolve? w.document root with
    | none => trivial
    | some n => exact ⟨hresolve n hfound, rfl⟩
  rintro n w₁ ⟨hn, hw⟩
  rw [hn, hw, hbody]
  refine Runs.bind (Q := fun _ w₁ => ∃ groups mids n, groups.length = count ∧
    RowGroups driver strip t' I t.block.start.directive T A u v w groups mids n w₁.document) ?_ ?_
  · refine Runs.bind (Q := fun plan w₁ => plan = .repeated count ∧ w₁ = w)
      (Runs.ask (runs_onState (fun plan s hrun => ?_) fun _ _ _ => trivial)) ?_
    · rw [hplan] at hrun
      cases hrun
      exact ⟨rfl, rfl⟩
    · rintro plan w₁ ⟨hplan, hw⟩
      rw [hplan, hw]
      exact Runs.discard ((runs_insertPlanned_rows hdriver hscope h hc count).mono
        (fun n _ h' => h'.imp fun _ hg => hg.imp fun _ hg => ⟨n, hg⟩) fun _ _ h' => h')
  · rintro - w₁ ⟨groups, mids, n, hlength, hg⟩
    exact runs_change ⟨groups, mids, n, w₁.document, hlength, hg, rfl⟩

end Items

end WordTemplate
