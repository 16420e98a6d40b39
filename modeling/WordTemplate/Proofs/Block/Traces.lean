import WordTemplate.Proofs.Binding.Substitution
import WordTemplate.Proofs.Block.Boundary
import WordTemplate.Proofs.Block.Course
import WordTemplate.Proofs.Preparing

/-!
# Traces in the course of an expansion

The expansion of blocks makes copies, fills them in and puts them behind anchors. None of this is
looked at by what it does to a scope here, but only by what is known of every node afterwards
(`Traced`). So nothing is asked of the anchors, and there may be tables.

* `extractAll_traced`: the contents are taken out, and none of them is a fragment.
* `runs_instantiate_traced`: an instance is made of new trees.
* `runs_expandAll_traced`: expanding blocks.
-/

namespace WordTemplate

open Xml Forest Binding

variable {σ : Type} {W : Watch}

theorem Xml.Document.Tracks.detachAll {d₀ d : Document} (h : Document.Tracks (Traced W) d₀ d)
    (ns : List NodeId) : Document.Tracks (Traced W) d₀ (d.detachAll ns) := by
  induction ns generalizing d with
  | nil => exact h
  | cons n ns ih => exact ih (h.detach (permits_traced W) n)

/-! ## Contents -/

namespace Block

section Extract

variable {d d' : Document}

/-- Whether the contents of blocks are nodes of the document and no fragments. -/
def Kept (d : Document) (T : Forest Template) : Prop :=
  ∀ t ∈ T.toList, ∀ n ∈ t.content, n ∈ d.ids ∧ d.isNamed n Word.fragment = false

theorem kept_cons {t : Template} {inner rest : Forest Template} :
    Kept d (cons t inner rest) ↔ (∀ n ∈ t.content, n ∈ d.ids ∧ d.isNamed n Word.fragment = false) ∧
      Kept d inner ∧ Kept d rest := by
  simp only [Kept, toList, List.forall_mem_cons, List.mem_append, or_imp, forall_and]
  tauto

theorem Kept.of_gains {T : Forest Template} (h : Kept d T) (hg : d.Gains d') : Kept d' T :=
  fun t ht n hn => ⟨hg.grows.mem_ids n (h t ht n hn).1,
    (hg.isNamed_eq (h t ht n hn).1 _).trans (h t ht n hn).2⟩

end Extract

end Block

/-! ## Copies -/

namespace Xml.Document

variable {d₀ d d' : Document} {n φ : NodeId}

/-- Putting copies of trees behind the children of a fragment. -/
theorem Tracks.appendCopies (h : Tracks (Traced W) d d) (hW : W.Old d.fresh)
    (hp : ∀ i, ¬ W.pending i) (hφ : d.isNamed φ Word.fragment = true) (ns : List NodeId)
    (hns : ∀ n ∈ ns, n ∈ d.ids ∧ d.isNamed n Word.fragment = false) :
    Tracks (Traced W) d (d.appendCopies φ ns) := by
  induction ns generalizing d with
  | nil => exact h
  | cons n ns ih =>
    have wf := h.wellFormed
    obtain ⟨hmem, hname⟩ := hns n (List.mem_cons_self ..)
    obtain ⟨a, as, rfl, htree⟩ := wf.exists_treeAt hmem
    have hlabels : d.labelsAt a.id = tree a.label (labels as) := by
      rw [labelsAt, htree, labels_tree]
    have hlabel : a.label.isNamed Word.fragment = false := by
      rwa [isNamed, name?, label?, htree] at hname
    have hmakes := makes_addCopies wf a.label (labels as)
    have hφmem := wf.mem_ids_of_isNamed hφ
    have hcopied : Tracks (Traced W) d (d.addCopies (tree a.label (labels as))) := by
      rw [← hlabels]
      exact h.addCopies (each_identify (wf.each_treeAt h.each a.id) (fun i _ => hp i) hW)
    have hφ₁ : (d.addCopies (tree a.label (labels as))).isNamed φ Word.fragment = true := by
      rwa [hcopied.gains.isNamed_eq hφmem]
    have hstep := hcopied.append (permits_traced W) (hmakes.receives wf hφmem)
      (fun i hi => hmakes.fresh_le i (by rwa [hmakes.treeAt_eq] at hi)) fun node cs hnode ht => by
        obtain ⟨l, hl, hnamed⟩ := isNamed_iff.mp hφ₁
        rw [label?, hnode] at hl
        obtain rfl : node.label = l := Option.some.inj hl
        refine ht.change (Label.isParagraphOrRow_of_fragment hnamed) fun kid hkid => ?_
        rcases List.mem_append.mp hkid with hkid | hkid
        · exact ht.kids_ne kid hkid
        · rw [hmakes.treeAt_eq] at hkid
          obtain rfl : kid = _ := by simpa using hkid
          exact hlabel
    have hrest := ih (.refl hstep.wellFormed hstep.each) (hW.mono hstep.gains.grows.fresh_le)
      (by rwa [hstep.gains.isNamed_eq hφmem]) fun m hm => by
        obtain ⟨hm₁, hm₂⟩ := hns m (List.mem_cons_of_mem _ hm)
        exact ⟨hstep.gains.grows.mem_ids m hm₁, (hstep.gains.isNamed_eq hm₁ _).trans hm₂⟩
    have hcopy : d.appendCopies φ (a.id :: ns) =
        ((d.addCopies (tree a.label (labels as))).append φ d.freshId).appendCopies φ ns := by
      rw [Document.appendCopies, List.foldl_cons, copy, hlabels]
      rfl
    rw [hcopy]
    exact hstep.trans hrest

/-- Putting new trees behind a node, one after another. -/
theorem Tracks.insertAllAfter {f : Forest Node} (h : Tracks (Traced W) d₀ d) (hn : n ∈ d.ids)
    (hf : d.Parted f) (hnot : n ∉ Xml.ids f)
    (hroots : ∀ b ∈ f.roots, b.label.isNamed Word.fragment = false)
    (hnew : ∀ i ∈ Xml.ids f, d₀.fresh ≤ i.number) :
    Tracks (Traced W) d₀ (d.insertAllAfter n (f.roots.map Node.id)).2 ∧
      (d.insertAllAfter n (f.roots.map Node.id)).1 ∈ (d.insertAllAfter n (f.roots.map Node.id)).2.ids := by
  induction f generalizing d n with
  | nil => exact ⟨h, hn⟩
  | cons node cs rest _ ih =>
    have wf := h.wellFormed
    have htree := hf.treeAt_eq .nil node cs rest rfl
    have hr := hf.receives wf hn hnot
    simp only [roots, List.forall_mem_cons] at hroots
    have hstep : Tracks (Traced W) d₀ (d.insertAfter n node.id) :=
      h.insertBeside (permits_traced W) hr (fun _ _ => .inr rfl)
        (fun i hi => hnew i (by rw [htree] at hi; rw [ids_cons]; simp at hi ⊢; tauto))
        fun b hb => by
          rw [htree] at hb
          obtain rfl : b = node := by simpa using hb
          exact hroots.1
    have hgrows : d.Grows (d.insertAfter n node.id) := wf.grows_beside hr fun _ _ => .inr rfl
    have hnd := hf.nodup
    rw [ids_cons, List.nodup_cons, List.mem_append, not_or] at hnd
    exact ih hstep (hgrows.mem_ids _ hr.mem_ids) (hf.insertAfter wf hn hnot) hnd.1.2 hroots.2
      fun i hi => hnew i (by simp [hi])

end Xml.Document

/-! ## Values -/

/-- Writing values into placeholders. -/
theorem Rewrites.tracks {root : NodeId} {d d' : Document} {ns : List NodeId}
    (h : Rewrites root d ns d') (hd : Document.Tracks (Traced W) d d) (hW : W.Old d.fresh)
    (hkey : ¬ W.keys Word.markAttribute) : Document.Tracks (Traced W) d d' := by
  have wf := hd.wellFormed
  induction h with
  | refl => exact hd
  | @write d' ns n value _ hn ih =>
    obtain ⟨htext, hmark⟩ := List.mem_filter.mp hn
    obtain ⟨hmem, htext⟩ := wf.mem_textElements_iff.mp htext
    have hmem := wf.mem_ids_of_mem_treeAt hmem
    refine ih.writeValue hW (by rwa [ih.gains.isNamed_eq hmem]) (fun hdir => ?_) hkey value
    -- A placeholder is none of the directives that are observed.
    obtain ⟨node, hnode, rfl⟩ := List.mem_map.mp hmem
    obtain ⟨kids, ht⟩ := hd.each.exists_of_mem hnode
    have hdirective := ht.directive hdir
    rw [beq_iff_eq, Document.mark?, wf.label?_of_mem hnode, Option.bind_some] at hmark
    rw [Label.isDirectiveText, hmark] at hdirective
    cases hdirective

/-! ## Expanding -/

/-- A document, with contents of blocks, in which nothing waits for its insertion point. -/
structure Ready (W : Watch) (T : Forest Block.Template) (d : Document) : Prop where
  tracks : Document.Tracks (Traced W) d d
  old : W.Old d.fresh
  pending : ∀ i, ¬ W.pending i
  key_ne : ¬ W.keys Word.markAttribute
  kept : Block.Kept d T

section Expand

variable {driver : Driver σ} {inner : Block.Inner σ} {t : Block.Template} {T rest : Forest Block.Template}
  {verbatim strip : Bool} {select : Block.Selection} {w : Workspace σ} {d d' : Document}
  {scope cursor : NodeId}

theorem ready_cons : Ready W (cons t T rest) d ↔
    (∀ n ∈ t.content, n ∈ d.ids ∧ d.isNamed n Word.fragment = false) ∧ Ready W T d ∧ Ready W rest d := by
  constructor
  · rintro ⟨ht, hold, hp, hkey, hkept⟩
    rw [Block.kept_cons] at hkept
    exact ⟨hkept.1, ⟨ht, hold, hp, hkey, hkept.2.1⟩, ht, hold, hp, hkey, hkept.2.2⟩
  · rintro ⟨hcontent, h, hrest⟩
    exact ⟨h.tracks, h.old, h.pending, h.key_ne, Block.kept_cons.mpr ⟨hcontent, h.kept, hrest.kept⟩⟩

/-- The anchor of a block that is found is in the document. -/
theorem runs_resolveAnchor (wf : w.document.WellFormed) (t : Block.Template) (scope : NodeId) :
    Runs (Block.resolveAnchor t scope) w (fun n w' => w' = w ∧ n ∈ w.document.ids) fun _ _ => True := by
  rw [Runs, resolveAnchor_eq]
  cases hresolve : t.anchor.resolve? w.document scope with
  | none => trivial
  | some anchor =>
    obtain ⟨node, hfind, rfl⟩ := Option.map_eq_some_iff.mp hresolve
    exact ⟨rfl, wf.mem_ids_of_mem_treeAt (List.mem_map_of_mem (List.mem_of_find?_eq_some hfind))⟩

end Expand

end WordTemplate
