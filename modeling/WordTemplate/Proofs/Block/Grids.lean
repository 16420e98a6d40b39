import WordTemplate.Proofs.Block.Course
import WordTemplate.Proofs.Block.Separation
import WordTemplate.Proofs.Word.Retouching

/-!
# Expanding blocks beside a grid

Some nodes, a table and its rows for example, are a grid if none of their children has an insertion point.
Then no block has its anchor among these children, so nothing is put beside them, and what is taken out of
there are at most empty paragraphs. Whatever blocks are expanded, the nodes of the grid have the same rows and
cells as before: `KeepsGrid`.

* `KeepsGrid.retouches`, `KeepsGrid.leaves`: changes of other kinds.
* `runs_expandAll_grid`: expanding blocks.
-/

namespace WordTemplate

open Xml Forest Binding Xml.Document

variable {σ : Type} {Z : NodeId → Prop} {d₀ d d' : Document} {n c p cursor scope : NodeId}

/-! ## Grids -/

/-- Whether no child of one of the nodes `Z` has an insertion point. -/
structure Grid (Z : NodeId → Prop) (d : Document) : Prop where
  wellFormed : d.WellFormed
  mem_ids : ∀ z, Z z → z ∈ d.ids
  not_text : ∀ z, Z z → d.isNamed z Word.text = false
  plain : ∀ z, Z z → ∀ n ∈ d.children z, d.attribute? n Word.insertionAttribute = none

/-- Whether a grid has kept its rows and cells, and every node is where it was, unless it was taken out. -/
structure KeepsGrid (Z : NodeId → Prop) (d₀ d : Document) : Prop where
  grows : d₀.Grows d
  grid : Grid Z d
  name?_eq : ∀ n ∈ d₀.ids, d.name? n = d₀.name? n
  label?_eq : ∀ n ∈ d₀.ids, ¬ d₀.OffGrid n → d.label? n = d₀.label? n
  parent?_eq : ∀ n ∈ d₀.ids, d.parent? n = d₀.parent? n ∨ d.parent? n = none
  childrenNamed_eq : ∀ z, Z z → ∀ name ∈ [Word.row, Word.cell], d.childrenNamed z name = d₀.childrenNamed z name

theorem Grid.refl (h : Grid Z d) : KeepsGrid Z d d :=
  ⟨.refl h.wellFormed, h, fun _ _ => rfl, fun _ _ _ => rfl, fun _ _ => .inl rfl, fun _ _ _ _ => rfl⟩

namespace KeepsGrid

theorem trans (h : KeepsGrid Z d₀ d) (h' : KeepsGrid Z d d') : KeepsGrid Z d₀ d' where
  grows := h.grows.trans h'.grows
  grid := h'.grid
  name?_eq n hn := (h'.name?_eq n (h.grows.mem_ids n hn)).trans (h.name?_eq n hn)
  label?_eq n hn hgrid := by
    have hgrid' : ¬ d.OffGrid n := fun hoff => hgrid (hoff.congr (h.name?_eq n hn).symm)
    exact (h'.label?_eq n (h.grows.mem_ids n hn) hgrid').trans (h.label?_eq n hn hgrid)
  parent?_eq n hn := by
    rcases h'.parent?_eq n (h.grows.mem_ids n hn) with he | he
    · rw [he]
      exact h.parent?_eq n hn
    · exact .inr he
  childrenNamed_eq z hz name hname :=
    (h'.childrenNamed_eq z hz name hname).trans (h.childrenNamed_eq z hz name hname)

variable (h : KeepsGrid Z d₀ d)
include h

/-- Texts are written, or paragraphs are taken out. -/
theorem retouches (hd : d.Retouches (fun _ => True) d') : KeepsGrid Z d₀ d' := by
  refine h.trans ⟨hd.grows, ⟨hd.grows.wellFormed, fun z hz => hd.grows.mem_ids z (h.grid.mem_ids z hz),
    fun z hz => ?_, fun z hz n hn => ?_⟩, hd.name?_eq, hd.label?_eq, fun n hn => ?_, fun z hz => ?_⟩
  · exact (hd.isNamed_eq (h.grid.mem_ids z hz) _).trans (h.grid.not_text z hz)
  · exact hd.plain h.grid.wellFormed (h.grid.plain z hz) n hn
  · exact (hd.parent?_eq n hn).imp_right And.right
  · exact hd.childrenNamed_eq z (h.grid.mem_ids z hz) (h.grid.not_text z hz)

/-- Nothing changes in the grid. -/
theorem step (hgrows : d.Grows d') (hlabel : ∀ n ∈ d.ids, d'.label? n = d.label? n)
    (hparent : ∀ n ∈ d₀.ids, d'.parent? n = d.parent? n ∨ d'.parent? n = none)
    (hchildren : ∀ z, Z z → d'.children z = d.children z) : KeepsGrid Z d₀ d' := by
  have wf := h.grid.wellFormed
  have hname : ∀ n ∈ d.ids, d'.name? n = d.name? n := fun n hn => by rw [name?, name?, hlabel n hn]
  refine ⟨h.grows.trans hgrows, ⟨hgrows.wellFormed, fun z hz => hgrows.mem_ids z (h.grid.mem_ids z hz),
    fun z hz => ?_, fun z hz n hn => ?_⟩, fun n hn => ?_, fun n hn hgrid => ?_, fun n hn => ?_,
    fun z hz name hmem => ?_⟩
  · rw [isNamed, hname z (h.grid.mem_ids z hz)]
    exact h.grid.not_text z hz
  · rw [hchildren z hz] at hn
    rw [attribute?, hlabel n (wf.mem_ids_of_mem_children hn)]
    exact h.grid.plain z hz n hn
  · exact (hname n (h.grows.mem_ids n hn)).trans (h.name?_eq n hn)
  · exact (hlabel n (h.grows.mem_ids n hn)).trans (h.label?_eq n hn hgrid)
  · rcases hparent n hn with he | he
    · rw [he]
      exact h.parent?_eq n hn
    · exact .inr he
  · rw [childrenNamed_congr (hchildren z hz) fun n hn => hname n (wf.mem_ids_of_mem_children hn)]
    exact h.childrenNamed_eq z hz name hmem

/-- All nodes that are there stay as they are. -/
theorem leaves (hd : d.Leaves d' (· ∈ d.ids)) : KeepsGrid Z d₀ d' :=
  h.step hd.grows (fun n hn => (hd.unchanged n hn).label?_eq)
    (fun n hn => .inl (hd.unchanged n (h.grows.mem_ids n hn)).parent?_eq)
    fun z hz => (hd.unchanged z (h.grid.mem_ids z hz)).children_eq

end KeepsGrid

/-! ## Nodes beside the grid -/

/-- Whether a node is no child of the grid. -/
structure BesideGrid (Z : NodeId → Prop) (d : Document) (n : NodeId) : Prop where
  mem_ids : n ∈ d.ids
  not_mem : ∀ z, Z z → n ∉ d.children z

theorem BesideGrid.of_keeps (hn : BesideGrid Z d n) (h : Grid Z d) (hd : KeepsGrid Z d d') : BesideGrid Z d' n := by
  refine ⟨hd.grows.mem_ids n hn.mem_ids, fun z hz hmem => ?_⟩
  have hparent := hd.grid.wellFormed.parent?_eq_some_iff.mpr hmem
  rcases hd.parent?_eq n hn.mem_ids with he | he
  · exact hn.not_mem z hz (h.wellFormed.parent?_eq_some_iff.mp (he.symm.trans hparent))
  · rw [he] at hparent
    cases hparent

/-- Nodes with insertion points are beside the grid. -/
theorem Grid.beside (h : Grid Z d) (hn : n ∈ d.ids) (ha : d.attribute? n Word.insertionAttribute ≠ none) :
    BesideGrid Z d n :=
  ⟨hn, fun z hz hmem => ha (h.plain z hz n hmem)⟩

namespace KeepsGrid

variable (h : KeepsGrid Z d₀ d)
include h

theorem detach (hn : BesideGrid Z d n) : KeepsGrid Z d₀ (d.detach n) := by
  have wf := h.grid.wellFormed
  refine h.step (wf.grows_detach n) (fun m _ => (wf.moves_detach n).label?_eq m) (fun m _ => ?_) fun z hz => ?_
  · by_cases hm : m = n
    · exact .inr (wf.parent?_detach (.inl hm))
    · exact .inl (wf.parent?_detach_of_ne hm)
  · rw [wf.children_detach, List.filter_eq_self]
    intro m hm
    rw [decide_eq_true_iff]
    rintro rfl
    exact hn.not_mem z hz hm

/-- An anchor is taken out, and the paragraph it was in if nothing is left there. -/
theorem removeAnchor (hn : BesideGrid Z d n) (strip : Bool) : KeepsGrid Z d₀ (Block.removeAnchor strip n d) := by
  have hout := h.detach hn
  unfold Block.removeAnchor
  dsimp only
  split
  · next paragraph hparagraph =>
    split
    · rw [detachEmptyParagraph]
      split
      · have hnamed : d.isNamed paragraph Word.paragraph = true := by
          simpa using List.find?_some hparagraph
        have hnamed : (d.detach n).isNamed paragraph Word.paragraph = true := by
          rw [isNamed, name?, (h.grid.wellFormed.moves_detach n).label?_eq]
          exact hnamed
        exact hout.retouches ((Retouches.refl hout.grid.wellFormed).detach
          (offGrid_of_isNamed hnamed (by decide) (by decide)) trivial)
      · exact hout
    · exact hout
  · exact hout

/-- New trees are put behind a node beside the grid. -/
theorem insertAllAfter {f : Forest Node} (hZ : ∀ z, Z z → z ∈ d₀.ids) (hn : BesideGrid Z d n) (hf : d.Parted f)
    (hnot : n ∉ ids f) (hnew : ∀ i ∈ ids f, i ∉ d₀.ids) :
    KeepsGrid Z d₀ (d.insertAllAfter n (f.roots.map Node.id)).2 ∧
      BesideGrid Z (d.insertAllAfter n (f.roots.map Node.id)).2 (d.insertAllAfter n (f.roots.map Node.id)).1 := by
  induction f generalizing d n with
  | nil => exact ⟨h, hn⟩
  | cons node cs rest _ ih =>
    have wf := h.grid.wellFormed
    have hr := hf.receives wf hn.mem_ids hnot
    have hnode := hnew node.id (by simp)
    have hput : ∀ f g : Forest Node, g ++ f = f ++ g ∨ g ++ f = g ++ f := fun _ _ => .inr rfl
    -- Where the cursor has no parent, nothing is put in.
    obtain ⟨hkeeps, hlast⟩ : KeepsGrid Z d₀ (d.insertAfter n node.id) ∧
        BesideGrid Z (d.insertAfter n node.id) node.id := by
      cases hp : d.parent? n with
      | none =>
        rw [Document.insertAfter, insertBeside, hp]
        refine ⟨h, hr.mem_ids, fun z hz hmem => ?_⟩
        rw [← wf.parent?_eq_some_iff, hr.parent?_eq] at hmem
        cases hmem
      | some p =>
        have hsome : (d.parent? n).isSome := by rw [hp]; rfl
        have hgrows := wf.grows_insertAfter hr hsome
        have hsame : ∀ z, Z z → (d.insertAfter n node.id).children z = d.children z := fun z hz =>
          (wf.unchanged_insertBeside hr hput (h.grid.mem_ids z hz)
            (fun he => hnode (he ▸ hZ z hz)) (hn.not_mem z hz)).children_eq
        refine ⟨h.step hgrows (fun m hm => wf.label?_insertBeside hr hsome hput hm) (fun m hm => .inl ?_) hsame,
          hgrows.mem_ids _ hr.mem_ids, fun z hz hmem => ?_⟩
        · exact wf.parent?_insertBeside_of_ne hr hsome hput fun he => hnode (he ▸ hm)
        · rw [hsame z hz, ← wf.parent?_eq_some_iff, hr.parent?_eq] at hmem
          cases hmem
    have hnd := hf.nodup
    rw [ids_cons, List.nodup_cons, List.mem_append, not_or] at hnd
    exact ih hkeeps hlast (hf.insertAfter wf hn.mem_ids hnot) hnd.1.2 fun i hi => hnew i (by simp [hi])

end KeepsGrid

/-! ## Expanding blocks -/

section Expand

variable {driver : Driver σ} {inner : Block.Inner σ} {t : Block.Template} {T rest : Forest Block.Template}
  {verbatim strip : Bool} {select : Block.Selection} {w : Workspace σ}

theorem Detached.keeps (hT : Detached d T) (h : KeepsGrid Z d d') : Detached d' T := fun t ht c hc => by
  obtain ⟨hmem, hnone⟩ := hT t ht c hc
  exact ⟨h.grows.mem_ids c hmem, (h.parent?_eq c hmem).elim (·.trans hnone) id⟩

theorem Detached.of_leaves (hT : Detached d T) (h : d.Leaves d' (· ∈ d.ids)) : Detached d' T := fun t ht c hc => by
  obtain ⟨hmem, hnone⟩ := hT t ht c hc
  exact ⟨h.grows.mem_ids c hmem, (h.unchanged c hmem).parent?_eq.trans hnone⟩

theorem detached_cons : Detached d (cons t T rest) ↔
    Detached d (tree t T) ∧ Detached d T ∧ Detached d rest := by
  simp only [Detached, tree, toList, List.forall_mem_cons, List.forall_mem_append, List.append_nil]
  tauto

/-- An instance is made of new nodes, and nothing else changes. -/
theorem runs_instantiate_new (strip verbatim : Bool) (select : Block.Selection) (hdriver : driver.StaysBelow) (hT : Detached w.document (tree t T))
    (wf : w.document.WellFormed) :
    Runs (Block.instantiate driver (Block.expandAll strip driver T 0) t verbatim select) w
      (fun ns w' => w.document.Leaves w'.document (· ∈ w.document.ids) ∧
        Logged.Parts w.document w'.document ns)
      fun _ _ => True := by
  have hstand : Standing w.document (tree t T) (· ∈ w.document.ids) w.document :=
    ⟨.all wf, .refl wf, fun n ⟨_, _, _, _, hn⟩ => wf.mem_ids_of_mem_treeAt hn⟩
  have hinner : Logged.InnerKeeps w.document (tree t T) (Logged.expandAll strip driver T 0) :=
    fun P select scope verbatim w' h hs hnot =>
      Logged.keeps_expandAll hdriver hT (fun u hu => by simp [tree, toList, hu]) h hs hnot 0
  have hkeeps : (Logged.instantiate driver (Logged.expandAll strip driver T 0) t verbatim select).Keeps _ _ w
      fun ns w' => Logged.Parts w.document w'.document ns :=
    Logged.keeps_instantiate hdriver hinner hT (by simp [tree, toList]) hstand
  have hstep : (Logged.instantiate driver (Logged.expandAll strip driver T 0) t verbatim select).step =
      Block.instantiate driver (Block.expandAll strip driver T 0) t verbatim select := by
    rw [Logged.step_instantiate]
    congr 1
    funext select scope verbatim
    exact Logged.step_expandAll ..
  obtain ⟨haccount, hresult⟩ := hkeeps
  rw [hstep] at haccount hresult
  unfold Runs
  cases hrun : Block.instantiate driver (Block.expandAll strip driver T 0) t verbatim select w with
  | ok ns w' =>
    have hleaves := haccount.leaves
    rw [hrun] at hleaves
    exact ⟨hleaves, hresult ns w' hrun⟩
  | error e w' => trivial

/-- Whether a step keeps the grid, if it succeeds. -/
abbrev RunsOnGrid {α : Type} (Z : NodeId → Prop) (m : Step Error σ α) (w : Workspace σ) : Prop :=
  Runs m w (fun _ w' => KeepsGrid Z w.document w'.document) fun _ _ => True

/-- Putting an instance behind a cursor. -/
theorem insertParts_grid {ns : List NodeId} (h : Grid Z d) (hd : d.Leaves d' (· ∈ d.ids))
    (hns : Logged.Parts d d' ns) (hcursor : BesideGrid Z d cursor) :
    KeepsGrid Z d (d'.insertAllAfter cursor ns).2 ∧
      BesideGrid Z (d'.insertAllAfter cursor ns).2 (d'.insertAllAfter cursor ns).1 := by
  obtain ⟨f, rfl, hparted, hnew⟩ := hns
  have hkeeps := h.refl.leaves hd
  exact hkeeps.insertAllAfter h.mem_ids (hcursor.of_keeps h hkeeps) hparted
    (fun hmem => hnew cursor hmem hcursor.mem_ids) hnew

/-- What keywords stand for are breaks without insertion points. -/
theorem of_keywordLabel? {keyword : String} {label : Label} (hlabel : Block.keywordLabel? keyword = some label) :
    label.isNamed Word.lineBreak = true ∧ label.attribute? Word.insertionAttribute = none := by
  unfold Block.keywordLabel? at hlabel
  dsimp only at hlabel
  split at hlabel <;> cases hlabel <;> decide

/-- Putting what a keyword stands for behind a node. -/
theorem Grid.keyword {keyword : String} {label : Label} (h : Grid Z d) (hcursor : cursor ∈ d.ids)
    (hlabel : Block.keywordLabel? keyword = some label) :
    KeepsGrid Z d ((d.create label).2.insertAfter cursor d.freshId) := by
  obtain ⟨hname, hplain⟩ := of_keywordLabel? hlabel
  have wf := h.wellFormed
  have hmakes : d.Makes (d.create label).2 d.freshId _ := makes_addCopies wf label .nil
  have hnamed : (d.create label).2.isNamed d.freshId Word.lineBreak = true := by
    rw [isNamed_of_label? (hmakes.extends_eq.grows.wellFormed.label?_of_tree hmakes.treeAt_eq).1]
    exact hname
  have hstart : d.Retouches (fun _ => True) d := .refl wf
  exact h.refl.retouches (hstart.insertAfterNew (hstart.create hplain) hmakes hcursor
    (offGrid_of_isNamed hnamed (by decide) (by decide))).1

/-- The anchor of a block is beside the grid. -/
theorem Grid.beside_of_resolve? {anchor : InsertionPoint} (h : Grid Z d) (hresolve : anchor.resolve? d scope = some n) :
    BesideGrid Z d n := by
  have wf := h.wellFormed
  obtain ⟨node, hfind, rfl⟩ := Option.map_eq_some_iff.mp hresolve
  have hnode := List.mem_of_find?_eq_some hfind
  refine h.beside (wf.mem_ids_of_mem_treeAt (List.mem_map_of_mem hnode)) ?_
  have hon := List.find?_some hfind
  rw [InsertionPoint.isOn, beq_iff_eq] at hon
  rw [attribute?, wf.label?_of_mem_treeAt hnode, Option.bind_some, hon]
  exact Option.some_ne_none _

/-- An expansion is to keep the grid. -/
def gridKeeping (Z : NodeId → Prop) : Keeping where
  ready _ T d := Grid Z d ∧ Detached d T
  cursor := BesideGrid Z
  kept := KeepsGrid Z
  failed _ _ := True

/-- Each of its changes does. -/
theorem course_grid (strip : Bool) (hdriver : driver.StaysBelow) : Course strip driver gridKeeping where
  refl h := h.1.refl
  trans h h' := h.trans h'
  failed _ := trivial
  trans_failed _ _ := trivial
  ready_cons h := by
    obtain ⟨hone, -, hrest⟩ := detached_cons.mp h.2
    exact ⟨⟨h.1, hone⟩, h.1, hrest⟩
  ready_kept h h' := ⟨h'.grid, h.2.keeps h'⟩
  cursor_kept h hn h' := hn.of_keeps h.1 h'
  anchor h hresolve := h.1.beside_of_resolve? hresolve
  insert h hn _ := (runs_instantiate_new _ _ _ hdriver h.2 h.1.wellFormed).mono
    (fun _ _ ⟨h', hns⟩ => insertParts_grid h.1 h' hns hn) fun _ _ h => h
  keyword h hn hlabel := h.1.keyword hn.mem_ids hlabel
  removeAnchor h hn := h.1.refl.removeAnchor hn _

/-- Expanding blocks, or removing their anchors. -/
theorem runs_expandAll_grid (hdriver : driver.StaysBelow) (h : Grid Z w.document)
    (hT : Detached w.document T) (i : Nat) :
    RunsOnGrid Z (Block.expandAll strip driver T i select scope verbatim) w :=
  (course_grid strip hdriver).runs_expandAll (i := Z) ⟨h, hT⟩ i

end Expand

end WordTemplate
