import WordTemplate.Proofs.Binding.Substitution
import WordTemplate.Proofs.Block.Course
import WordTemplate.Proofs.Block.Separation
import WordTemplate.Proofs.Word.Confined

/-!
# Expanding blocks behind a fence

Whatever the driver plans, expanding the blocks of a scope respects the fence around it. An instance is put
together in a fragment, and around that there is a fence of its own: all nodes that were there before are on
the other side of it, and they are guarded. So an instance consists of new nodes, and it is put behind a
node of the scope.

* `Rewrites.confined`: writing values.
* `runs_instantiate_confined`: making an instance.
* `runs_expandAll_confined`: expanding blocks, whether it succeeds or not.
-/

namespace WordTemplate

open Xml Forest Binding Xml.Document

variable {σ : Type} {F : Fence} {d d' : Document} {n c cursor anchor : NodeId}

/-! ## Values -/

/-- Writing values into placeholders of the scope. -/
theorem Rewrites.confined {ns : List NodeId} (hr : Rewrites F.root d ns d') (h : Fenced F d) :
    Confined F d d' := by
  induction hr with
  | refl => exact h.refl
  | write value _ hn ih =>
    have hin := enclosed_of_mem_textElements h (List.mem_filter.mp hn).1
    exact ih.trans (ih.fenced.writeValue (ih.enclosed hin) value)

/-! ## Contents -/

/-- Whether what is at and below `c` can be copied into the scope, now and later: it is on this side of the
fence, or it is guarded and its labels may be on this side. -/
structure Copyable (F : Fence) (d : Document) (c : NodeId) : Prop where
  mem_ids : c ∈ d.ids
  ne_root : c ≠ F.root
  guarded : F.outside c → F.guarded
  not_mem : F.outside c → F.root ∉ ids (d.treeAt c)
  inner : F.outside c → ∀ l ∈ (d.labelsAt c).toList, F.inner l

theorem Copyable.labels (hc : Copyable F d c) (h : Fenced F d) : ∀ l ∈ (d.labelsAt c).toList, F.inner l := by
  by_cases ho : F.outside c
  · exact hc.inner ho
  · exact fun l hl => h.inner_of_mem_labelsAt ho hc.ne_root hl

theorem Copyable.treeAt_eq (hc : Copyable F d c) (h : Fenced F d) (hd : Confined F d d') (ho : F.outside c) :
    d'.treeAt c = d.treeAt c := by
  refine h.wellFormed.treeAt_congr hd.fenced.wellFormed hc.mem_ids fun m hm => ?_
  have hne : m ≠ F.root := by
    rintro rfl
    exact hc.not_mem ho hm
  -- All that is below something outside is outside, unless the scope is between them.
  have hout := h.wellFormed.forall_mem_treeAt
    (P := fun i => F.outside i ∧ i ∈ ids (d.treeAt c)) (fun p i hi ⟨hp, hmem⟩ => ⟨?_, ?_⟩) hm
    ⟨ho, h.wellFormed.mem_treeAt_self hc.mem_ids⟩
  · have hm := hd.unchanged (hc.guarded ho) m hout.1 hne
    exact ⟨hm.label?_eq, hm.children_eq⟩
  · refine (h.iff_of_mem_children p i ?_ hi).mp hp
    rintro rfl
    exact hc.not_mem ho hmem
  · exact h.wellFormed.mem_treeAt_trans hmem (h.wellFormed.mem_treeAt_of_mem_children hi)

theorem Copyable.of_confined (hc : Copyable F d c) (h : Fenced F d) (hd : Confined F d d') : Copyable F d' c where
  mem_ids := hd.grows.mem_ids c hc.mem_ids
  ne_root := hc.ne_root
  guarded := hc.guarded
  not_mem ho := by
    rw [hc.treeAt_eq h hd ho]
    exact hc.not_mem ho
  inner ho := by
    rw [labelsAt, hc.treeAt_eq h hd ho]
    exact hc.inner ho

/-- Whether blocks with these contents can be expanded in the scope. Paragraphs beyond the scope must not be
stripped if they are guarded, and the scope is not taken for an anchor if it is outside. -/
structure Expandable (strip : Bool) (F : Fence) (d : Document) (T : Forest Block.Template) : Prop where
  fenced : Fenced F d
  copyable : ∀ t ∈ T.toList, ∀ c ∈ t.content, Copyable F d c
  strip : F.guarded → F.outside F.root → strip = false
  anchor_ne : F.outside F.root → ∀ kind number,
    d.attribute? F.root Word.insertionAttribute ≠ some (Block.startPoint kind number).id

section Expand

variable {driver : Driver σ} {inner : Block.Inner σ} {t : Block.Template} {T rest : Forest Block.Template}
  {verbatim strip : Bool} {select : Block.Selection} {w : Workspace σ}

theorem Expandable.of_confined (h : Expandable strip F d T) (hd : Confined F d d') :
    Expandable strip F d' T where
  fenced := hd.fenced
  copyable t ht c hc := (h.copyable t ht c hc).of_confined h.fenced hd
  strip := h.strip
  anchor_ne ho kind number := by
    rw [Document.attribute?, hd.label?_eq ho]
    exact h.anchor_ne ho kind number

theorem expandable_cons : Expandable strip F d (cons t T rest) ↔
    (∀ c ∈ t.content, Copyable F d c) ∧ Expandable strip F d T ∧ Expandable strip F d rest := by
  constructor
  · rintro ⟨h, hcopyable, hstrip, hanchor⟩
    simp only [toList, List.forall_mem_cons, List.forall_mem_append] at hcopyable
    exact ⟨hcopyable.1, ⟨h, hcopyable.2.1, hstrip, hanchor⟩, h, hcopyable.2.2, hstrip, hanchor⟩
  · rintro ⟨hcontent, ⟨h, hT, hstrip, hanchor⟩, hrest⟩
    refine ⟨h, ?_, hstrip, hanchor⟩
    simp only [toList, List.forall_mem_cons, List.forall_mem_append]
    exact ⟨hcontent, hT, hrest.copyable⟩

/-- Whether a step respects the fence, whether it succeeds or not. -/
abbrev RunsConfined {α : Type} (F : Fence) (m : Step Error σ α) (w : Workspace σ) : Prop :=
  Runs m w (fun _ w' => Confined F w.document w'.document) fun _ w' => Confined F w.document w'.document

/-- A step after what was done before. -/
theorem runs_after {α : Type} {m : Step Error σ α} (hw : Confined F d w.document) (h : RunsConfined F m w) :
    Runs m w (fun _ w' => Confined F d w'.document) fun _ w' => Confined F d w'.document :=
  h.mono (fun _ _ h => hw.trans h) fun _ _ h => hw.trans h

/-- Whether dealing with blocks in a scope respects the fence around it. -/
def InnerConfined (strip : Bool) (T : Forest Block.Template) (inner : Block.Inner σ) : Prop :=
  ∀ (F : Fence) select verbatim w, Expandable strip F w.document T →
    RunsConfined F (inner select F.root verbatim) w

theorem runs_substitute_confined (hdriver : driver.RewritesPlaceholders) (h : Fenced F w.document) :
    RunsConfined F (Block.ask (driver.substitute F.root)) w :=
  Runs.ask ((hdriver F.root w).mono (fun _ _ ⟨_, hns⟩ => hns.confined h) fun _ _ ⟨_, hns⟩ => hns.confined h)

theorem runs_fillFragment_confined (hdriver : driver.RewritesPlaceholders)
    (hinner : InnerConfined strip T inner) (h : Expandable strip F w.document T) :
    RunsConfined F (fillFragment driver inner select verbatim F.root) w := by
  unfold fillFragment
  split
  · exact (runs_substitute_confined hdriver h.fenced).bind fun _ w₁ h₁ =>
      runs_after h₁ (hinner F select verbatim w₁ (h.of_confined h₁))
  · exact hinner F select verbatim w h

/-- The fence around a fragment: all nodes that were there before are on the other side. -/
def fragmentFence (F : Fence) (d : Document) : Fence :=
  ⟨d.freshId, (· ∈ d.ids), True, F.inner, F.inner⟩

theorem freshId_not_mem (wf : d.WellFormed) : d.freshId ∉ d.ids :=
  fun hmem => Nat.lt_irrefl _ (wf.lt_fresh _ hmem)

/-- A new fragment, with a fence around it. -/
theorem Expandable.fragment (h : Expandable strip F d T) :
    Expandable strip (fragmentFence F d) (d.createElement Word.fragment).2 T := by
  have wf := h.fenced.wellFormed
  obtain ⟨hinner, -, hmade⟩ := h.fenced.tolerant
  have hleaves : d.Leaves (d.createElement Word.fragment).2 (· ∈ d.ids) :=
    wf.leaves_addCopies (fun _ hm => hm) (tree (.element ⟨Word.fragment, []⟩) .nil)
  have wf' := hleaves.grows.wellFormed
  have hmakes := makes_addCopies wf (.element ⟨Word.fragment, []⟩) .nil
  have hlabel : ∀ n l, (d.createElement Word.fragment).2.label? n = some l → n ∉ d.ids → F.inner l := by
    intro n l hl hn
    obtain rfl : l = .element ⟨Word.fragment, []⟩ := by
      simpa [tree, toList] using wf.mem_of_label?_addCopies hn hl
    exact hmade _ (by simp [Word.madeNames])
  have hfence : Fenced (fragmentFence F d) (d.createElement Word.fragment).2 := by
    refine ⟨wf', fun n hn => hleaves.grows.mem_ids n hn, hmakes.mem_ids,
      fun p n _ hn => ((Closed.all wf).of_leaves wf hleaves).iff_of_mem_children p n hn, fun n hn => ?_,
      fun p hp => ?_, fun ho => absurd ho (freshId_not_mem wf), ⟨hinner, hinner, hmade⟩,
      fun n l hl hn _ => hlabel n l hl hn, fun l hl hn => hlabel _ l hl hn⟩
    · have hn : n ∈ (d.addCopies (tree (.element ⟨Word.fragment, []⟩) .nil)).children d.freshId := hn
      rw [children_of_tree hmakes.treeAt_eq] at hn
      cases hn
    · have hparent := wf'.parent?_eq_some_iff.mpr hp
      have hnone : (d.createElement Word.fragment).2.parent? d.freshId = none := hmakes.parent?_eq
      rw [show (fragmentFence F d).root = d.freshId from rfl, hnone] at hparent
      cases hparent
  refine ⟨hfence, fun t ht c hc => ?_, fun _ ho => absurd ho (freshId_not_mem wf),
    fun ho => absurd ho (freshId_not_mem wf)⟩
  have hcopyable := h.copyable t ht c hc
  have htree : (d.createElement Word.fragment).2.treeAt c = d.treeAt c :=
    wf.treeAt_addCopies_of_mem _ hcopyable.mem_ids
  refine ⟨hleaves.grows.mem_ids c hcopyable.mem_ids, ?_, fun _ => trivial, fun _ hmem => ?_, fun _ => ?_⟩
  · rintro rfl
    exact freshId_not_mem wf hcopyable.mem_ids
  · rw [htree] at hmem
    exact freshId_not_mem wf (wf.mem_ids_of_mem_treeAt hmem)
  · rw [labelsAt, htree]
    exact hcopyable.labels h.fenced

/-- What was done in a fragment, seen from outside. -/
theorem Expandable.of_fragment (h : Expandable strip F d T)
    (hd : Confined (fragmentFence F d) (d.createElement Word.fragment).2 d') : Confined F d d' := by
  have wf := h.fenced.wellFormed
  have hleaves : d.Leaves (d.createElement Word.fragment).2 (· ∈ d.ids) :=
    wf.leaves_addCopies (fun _ hm => hm) (tree (.element ⟨Word.fragment, []⟩) .nil)
  have hrest : (d.createElement Word.fragment).2.Leaves d' (· ∈ d.ids) :=
    hd.leaves trivial fun n hn => ⟨hn, by rintro rfl; exact freshId_not_mem wf hn⟩
  refine h.fenced.of_leaves (hleaves.trans hrest) fun n l hn hl => ?_
  by_cases he : n = d.freshId
  · subst he
    exact hd.fenced.top l hl hn
  · exact hd.fenced.inner n l hl hn he

/-- Putting copies behind the children of the scope. -/
theorem appendCopies_confined (ns : List NodeId) (h : Fenced F d) (hns : ∀ n ∈ ns, Copyable F d n) :
    Confined F d (d.appendCopies F.root ns) := by
  induction ns generalizing d with
  | nil => exact h.refl
  | cons n ns ih =>
    have hn := hns n (List.mem_cons_self ..)
    obtain ⟨a, as, rfl, htree⟩ := h.wellFormed.exists_treeAt hn.mem_ids
    have hlabels : d.labelsAt a.id = tree a.label (labels as) := by
      rw [labelsAt, htree, labels_tree]
    have hcopied := h.addCopies (hn.labels h)
    have hput : Confined F d ((d.copy a.id).2.append F.root (d.copy a.id).1) :=
      (h.appendNew hcopied (hlabels ▸ makes_addCopies h.wellFormed a.label (labels as)) h.root_mem
        (.inl rfl)).1
    rw [Document.appendCopies, List.foldl_cons]
    exact hput.trans (ih hput.fenced fun m hm =>
      (hns m (List.mem_cons_of_mem _ hm)).of_confined h hput)

/-- An instance of the content of a block is made of new trees. -/
theorem runs_instantiate_confined (hdriver : driver.RewritesPlaceholders)
    (hinner : InnerConfined strip T inner) (h : Expandable strip F w.document (cons t T .nil)) :
    Runs (Block.instantiate driver inner t verbatim select) w
      (fun ns w' => Confined F w.document w'.document ∧ Logged.Parts w.document w'.document ns)
      fun _ w' => Confined F w.document w'.document := by
  obtain ⟨d, s⟩ := w
  obtain ⟨hcontent, hT, -⟩ := expandable_cons.mp h.fragment
  rw [instantiate_eq]
  -- Everything in the fragment happens on this side of the fence around it.
  suffices hfilled : Runs (do
        Step.change (·.appendCopies d.freshId t.content)
        fillFragment driver inner select verbatim d.freshId
        Step.changeGet (·.takeChildren d.freshId))
      (⟨(d.createElement Word.fragment).2, s⟩ : Workspace σ)
      (fun ns w' => Confined (fragmentFence F d) (d.createElement Word.fragment).2 w'.document ∧
        Logged.Parts d w'.document ns)
      fun _ w' => Confined (fragmentFence F d) (d.createElement Word.fragment).2 w'.document by
    refine Runs.bind (Q := fun n w₁ => n = d.freshId ∧ w₁ = ⟨(d.createElement Word.fragment).2, s⟩)
      (runs_changeGet ⟨rfl, rfl⟩) ?_
    rintro n w₁ ⟨rfl, rfl⟩
    exact hfilled.mono (fun _ _ h' => ⟨h.of_fragment h'.1, h'.2⟩) fun _ _ h' => h.of_fragment h'
  have hcopied := appendCopies_confined t.content hT.fenced hcontent
  refine Runs.bind (Q := fun _ w₂ => Confined (fragmentFence F d) (d.createElement Word.fragment).2
    w₂.document) (runs_change hcopied) ?_
  rintro - w₂ h₂
  refine (runs_after h₂ (runs_fillFragment_confined hdriver hinner (hT.of_confined h₂))).bind ?_
  rintro - w₃ h₃
  obtain ⟨φ, f, hφ, htree⟩ := h₃.fenced.wellFormed.exists_treeAt h₃.fenced.root_mem
  obtain ⟨hns, hparted⟩ := Document.takeChildren_parted h₃.fenced.wellFormed htree
  have hnot : ¬ (fragmentFence F d).outside d.freshId := freshId_not_mem h.fenced.wellFormed
  refine runs_changeGet ⟨h₃.trans (h₃.fenced.takeChildren fun _ => hnot), f, hns, hparted, fun i hi => ?_⟩
  exact h₃.fenced.not_of_mem_treeAt hnot (by
    rw [show w₃.document.treeAt d.freshId = tree φ f from htree, ids_tree]
    exact List.mem_cons_of_mem _ hi)

/-- Putting new trees behind a node, one after another. -/
theorem insertAllAfter_confined {f : Forest Node} (h : Fenced F d) (hn : Enclosed F d n) (hf : d.Parted f)
    (hnot : n ∉ ids f) (hnew : ∀ i ∈ ids f, ¬ F.outside i ∧ i ≠ F.root) :
    Confined F d (d.insertAllAfter n (f.roots.map Node.id)).2 ∧
      Enclosed F (d.insertAllAfter n (f.roots.map Node.id)).2
        (d.insertAllAfter n (f.roots.map Node.id)).1 := by
  induction f generalizing d n with
  | nil => exact ⟨h.refl, hn⟩
  | cons node cs rest _ ih =>
    have hr := hf.receives h.wellFormed hn.mem_ids hnot
    obtain ⟨hout, hne⟩ := hnew node.id (by simp)
    have hstep : Confined F d (d.insertAfter n node.id) :=
      h.insertBeside hr (fun _ _ => .inr rfl) hn.not_outside hout hne
    have hnd := hf.nodup
    rw [ids_cons, List.nodup_cons, List.mem_append, not_or] at hnd
    obtain ⟨hrest, hlast⟩ := ih hstep.fenced (hstep.enclosed ⟨hr.mem_ids, hout⟩)
      (hf.insertAfter h.wellFormed hn.mem_ids hnot) hnd.1.2 fun i hi => hnew i (by simp [hi])
    exact ⟨hstep.trans hrest, hlast⟩

/-- Putting an instance behind a cursor. -/
theorem insertParts_confined {ns : List NodeId} (h : Fenced F d) (hd : Confined F d d')
    (hns : Logged.Parts d d' ns) (hcursor : Enclosed F d cursor) :
    Confined F d (d'.insertAllAfter cursor ns).2 ∧
      Enclosed F (d'.insertAllAfter cursor ns).2 (d'.insertAllAfter cursor ns).1 := by
  obtain ⟨f, rfl, hparted, hnew⟩ := hns
  obtain ⟨hput, hlast⟩ := insertAllAfter_confined hd.fenced (hd.enclosed hcursor) hparted
    (fun hmem => hnew cursor hmem hcursor.mem_ids) fun i hi => h.not_of_fresh (hnew i hi)
  exact ⟨hd.trans hput, hlast⟩

theorem inner_of_keywordLabel? {keyword : String} {label : Label} (h : F.Tolerant)
    (hlabel : Block.keywordLabel? keyword = some label) : F.inner label := by
  have hbreak := h.made Word.lineBreak (by simp [Word.madeNames])
  unfold Block.keywordLabel? at hlabel
  dsimp only at hlabel
  split at hlabel <;> cases hlabel
  · exact hbreak
  · exact h.inner.setAttribute hbreak
  · exact h.inner.setAttribute hbreak

/-- Putting what a keyword stands for behind a node. -/
theorem keyword_confined {keyword : String} {label : Label} (h : Fenced F d) (hn : Enclosed F d n)
    (hlabel : Block.keywordLabel? keyword = some label) :
    Confined F d ((d.create label).2.insertAfter n d.freshId) := by
  have hmade : Confined F d (d.create label).2 := h.addCopies fun l hl => by
    obtain rfl : l = label := by simpa [tree, toList] using hl
    exact inner_of_keywordLabel? h.tolerant hlabel
  exact (h.insertAfterNew hmade (makes_addCopies h.wellFormed label .nil) hn).1

/-- The anchor of a block is inside. -/
theorem Expandable.enclosed_of_resolve? (h : Expandable strip F d T)
    (hresolve : t.anchor.resolve? d F.root = some n) : Enclosed F d n := by
  have wf := h.fenced.wellFormed
  obtain ⟨node, hfind, rfl⟩ := Option.map_eq_some_iff.mp hresolve
  have hnode := List.mem_of_find?_eq_some hfind
  have hmem : node.id ∈ ids (d.treeAt F.root) := List.mem_map_of_mem hnode
  refine ⟨wf.mem_ids_of_mem_treeAt hmem, ?_⟩
  by_cases hne : node.id = F.root
  · -- The scope is not taken for an anchor.
    intro ho
    have hon := List.find?_some hfind
    rw [InsertionPoint.isOn, beq_iff_eq] at hon
    have hlabel := wf.label?_of_mem_treeAt hnode
    rw [hne] at ho hlabel
    refine h.anchor_ne ho t.kind t.number ?_
    rw [Document.attribute?, hlabel]
    exact hon
  · exact h.fenced.not_of_mem_root hmem hne

/-- An anchor is taken out, and the paragraph it was in if nothing in it is to be guarded. -/
theorem removeAnchor_confined (h : Expandable strip F d T) (hn : Enclosed F d n) :
    Confined F d (Block.removeAnchor strip n d) := by
  have hout := h.fenced.detach fun _ => hn.not_outside
  unfold Block.removeAnchor
  dsimp only
  split
  · next paragraph hparagraph =>
    split
    · next hstrip =>
      rw [detachEmptyParagraph]
      split
      · refine hout.trans (hout.fenced.detach fun hguarded ho => ?_)
        -- Nothing that is outside is above a node on this side, unless the scope is outside.
        by_cases hroot : F.outside F.root
        · rw [h.strip hguarded hroot] at hstrip
          cases hstrip
        · have hmem := List.mem_of_find?_eq_some hparagraph
          exact h.fenced.not_of_isAncestor hroot hn.not_outside (by simpa [isAncestor] using hmem) ho
      · exact hout
    · exact hout
  · exact hout

/-- An expansion is to respect the fence around the scope, whether it succeeds or not. -/
def fenceKeeping (strip : Bool) (F : Fence) : Keeping where
  ready scope T d := scope = F.root ∧ Expandable strip F d T
  cursor := Enclosed F
  kept := Confined F
  failed := Confined F

/-- Each of its changes does. -/
theorem course_confined (strip : Bool) (hdriver : driver.RewritesPlaceholders) :
    Course strip driver (fenceKeeping strip) where
  refl h := h.2.fenced.refl
  trans h h' := h.trans h'
  failed h := h
  trans_failed h h' := h.trans h'
  ready_cons h := by
    obtain ⟨hcontent, hT, hrest⟩ := expandable_cons.mp h.2
    exact ⟨⟨h.1, expandable_cons.mpr ⟨hcontent, hT, hT.fenced, (fun _ ht => by cases ht), hT.strip, hT.anchor_ne⟩⟩,
      h.1, hrest⟩
  ready_kept h h' := ⟨h.1, h.2.of_confined h'⟩
  cursor_kept _ hn h' := h'.enclosed hn
  anchor h hresolve := h.2.enclosed_of_resolve? (h.1 ▸ hresolve)
  insert h hn hinner :=
    (runs_instantiate_confined hdriver (fun F _ _ _ h => hinner F _ F.root _ _ ⟨rfl, h⟩) h.2).mono
      (fun _ _ ⟨h', hns⟩ => insertParts_confined h.2.fenced h' hns hn) fun _ _ h => h
  keyword h hn hlabel := keyword_confined h.2.fenced hn hlabel
  removeAnchor h hn := removeAnchor_confined h.2 hn

/-- Expanding blocks, or removing their anchors. -/
theorem runs_expandAll_confined (hdriver : driver.RewritesPlaceholders) {i : Nat}
    (h : Expandable strip F w.document T) :
    RunsConfined F (Block.expandAll strip driver T i select F.root verbatim) w :=
  (course_confined strip hdriver).runs_expandAll (i := F) ⟨rfl, h⟩ i

end Expand

end WordTemplate
