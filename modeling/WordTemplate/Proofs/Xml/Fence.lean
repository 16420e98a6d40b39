import WordTemplate.Proofs.Word.Detachment
import WordTemplate.Proofs.Xml.Division
import WordTemplate.Proofs.Xml.Each
import WordTemplate.Proofs.Xml.Unchanged

/-!
# The fence around a scope

What is done to the scope at and below `root` connects nothing in it to what is outside. What is put in is
new, or it was taken out of the scope, and it is put where nodes of the scope are. So an edge between a parent
and a child does not lead over the fence, but for those at `root` (`Fenced`), and what is not outside is not
above `root` (`Fenced.not_mem_treeAt`). If nodes are only taken out of the scope, what is outside stays as it
is: it is guarded.

The labels in the scope are those that were there, with other attributes, and those of the elements that
processing makes. So what holds of these and does not depend on attributes (`Outlasts`) goes on holding.

* `fenced_outside`: the fence in the beginning.
* `Fenced.detach`, `Fenced.insertBeside`, `Fenced.settle` and the like: the changes that respect it.
* `Confined.leaves`: what is outside is left alone.
-/

namespace WordTemplate

open Xml Forest

/-- The names of the elements that are made in the course of processing. -/
def Word.madeNames : List String :=
  [text, lineBreak, paragraph, row, fragment]

/-- Whether a property of labels does not depend on what processing changes about labels. -/
structure Outlasts (K : Label → Prop) : Prop where
  setAttribute : ∀ {l key value}, K l → K (l.setAttribute key value)
  eraseAttribute : ∀ {l key}, K l → K (l.eraseAttribute key)
  text : ∀ content, K (.text content)

/-- A fence around a scope, with what is known of the labels on this side of it. -/
structure Fence where
  root : NodeId
  /-- The nodes on the other side; `root` is one of them if it has a parent. -/
  outside : NodeId → Prop
  /-- Whether the nodes on the other side are to stay as they are. -/
  guarded : Prop
  /-- What holds of the labels on this side, apart from that of `root`. -/
  inner : Label → Prop
  /-- What holds of the label of `root` if it is on this side. -/
  top : Label → Prop

/-- Whether what is known of labels holds of new ones, and of those there are after changes. -/
structure Fence.Tolerant (F : Fence) : Prop where
  inner : Outlasts F.inner
  top : Outlasts F.top
  made : ∀ name ∈ Word.madeNames, F.inner (.element ⟨name, []⟩)

/-- The nodes of a forest after a part of it was replaced. -/
theorem Xml.mem_toList_replace {f g : Forest Node} {n : NodeId} {node : Node}
    (h : node ∈ (f.replace (·.id == n) fun _ _ => g).toList) : node ∈ f.toList ∨ node ∈ g.toList := by
  by_cases hn : n ∈ ids f
  · obtain ⟨a, cs, u, w, -, -, hf, hput, -⟩ := exists_toList_replace (any_id_iff.mpr hn)
    rw [hput, List.mem_append, List.mem_append] at h
    simp only [hf, List.mem_append]
    tauto
  · rw [replace_eq_self_of_not_mem hn] at h
    exact .inl h

/-- The labels of the nodes of a forest. -/
theorem Xml.mem_labels_iff {f : Forest Node} {l : Label} :
    l ∈ (labels f).toList ↔ ∃ node ∈ f.toList, node.label = l := by
  rw [labels, toList_map, List.mem_map]

namespace Xml.Document

variable {d d' d'' : Document} {root n t p c : NodeId} {F : Fence}

/-- Whether `n` is outside of the scope at `root`: beyond it, or `root` itself if it has a parent. -/
def Outside (d : Document) (root n : NodeId) : Prop :=
  d.Beyond root n ∨ n = root ∧ (d.parent? root).isSome

/-- Whether no edge leads from the nodes outside to others, but for those from `root` to its children. If
`root` has a parent, it is outside, and then it is none of the elements that can be taken out with what is in
them. -/
structure Fenced (F : Fence) (d : Document) : Prop where
  wellFormed : d.WellFormed
  mem_ids : ∀ n, F.outside n → n ∈ d.ids
  root_mem : F.root ∈ d.ids
  iff_of_mem_children : ∀ p n, p ≠ F.root → n ∈ d.children p → (F.outside p ↔ F.outside n)
  not_of_mem_children : ∀ n ∈ d.children F.root, ¬ F.outside n
  of_mem_children : ∀ p, F.root ∈ d.children p → F.outside F.root
  not_named : F.outside F.root → ∀ name ∈ [Word.text, Word.run, Word.row], d.isNamed F.root name = false
  tolerant : F.Tolerant
  inner : ∀ n l, d.label? n = some l → ¬ F.outside n → n ≠ F.root → F.inner l
  top : ∀ l, d.label? F.root = some l → ¬ F.outside F.root → F.top l

/-- Whether a change from `d` to `d'` respects the fence. -/
structure Confined (F : Fence) (d d' : Document) : Prop where
  grows : d.Grows d'
  fenced : Fenced F d'
  label?_eq : F.outside F.root → d'.label? F.root = d.label? F.root
  unchanged : F.guarded → ∀ n, F.outside n → n ≠ F.root → d.Unchanged d' n

theorem Confined.trans (h : Confined F d d') (h' : Confined F d' d'') : Confined F d d'' where
  grows := h.grows.trans h'.grows
  fenced := h'.fenced
  label?_eq ho := (h'.label?_eq ho).trans (h.label?_eq ho)
  unchanged hF n hn hne := (h.unchanged hF n hn hne).trans (h'.unchanged hF n hn hne)

/-- Whether `n` is a node on this side of the fence. -/
structure Enclosed (F : Fence) (d : Document) (n : NodeId) : Prop where
  mem_ids : n ∈ d.ids
  not_outside : ¬ F.outside n

theorem Confined.enclosed (h : Confined F d d') (hn : Enclosed F d n) : Enclosed F d' n :=
  ⟨h.grows.mem_ids n hn.mem_ids, hn.not_outside⟩

/-- The label of a node that was made as a part of a copy. -/
theorem WellFormed.mem_of_label?_addCopies (wf : d.WellFormed) {copies : Forest Label} {l : Label}
    (hn : n ∉ d.ids) (hl : (d.addCopies copies).label? n = some l) : l ∈ copies.toList := by
  have wf' := (wf.grows_addCopies copies).wellFormed
  obtain ⟨node, hnode, rfl⟩ := List.mem_map.mp (wf'.mem_ids_of_label? hl)
  obtain rfl : node.label = l := Option.some.inj ((wf'.label?_of_mem hnode).symm.trans hl)
  rw [addCopies_eq, remake_trees, toList_append, List.mem_append] at hnode
  rcases hnode with hnode | hnode
  · rw [← labels_identify d.fresh copies]
    exact mem_labels_iff.mpr ⟨node, hnode, rfl⟩
  · exact absurd (List.mem_map_of_mem hnode) hn

/-- The fence around the scope as it is. -/
theorem fenced_outside (wf : d.WellFormed) (hroot : F.root ∈ d.ids) (houtside : F.outside = d.Outside F.root)
    (hname : (d.parent? F.root).isSome → ∀ name ∈ [Word.text, Word.run, Word.row],
      d.isNamed F.root name = false)
    (tolerant : F.Tolerant)
    (hinner : ∀ n l, d.label? n = some l → n ∈ Xml.ids (d.treeAt F.root) → n ≠ F.root → F.inner l)
    (htop : ∀ l, d.label? F.root = some l → F.top l) : Fenced F d := by
  obtain ⟨root, outside, guarded, inner, top⟩ := F
  dsimp only at hroot houtside hname hinner htop
  subst houtside
  have hnot : ∀ n ∈ d.children root, ¬ d.Outside root n := by
    rintro n hn (⟨-, hout⟩ | ⟨rfl, -⟩)
    · exact hout (wf.mem_treeAt_of_mem_children hn)
    · exact wf.not_mem_children_self _ hn
  refine ⟨wf, ?_, hroot, fun p n hp hn => ?_, hnot, fun p hp => ?_, fun ho => ?_, tolerant,
    fun n l hl hn hne => ?_, fun l hl _ => htop l hl⟩
  · rintro n (⟨hn, -⟩ | ⟨rfl, -⟩)
    · exact hn
    · exact hroot
  · have hparent := wf.parent?_eq_some_iff.mpr hn
    constructor
    · rintro (⟨-, hout⟩ | ⟨rfl, -⟩)
      · by_cases hne : n = root
        · subst hne
          exact .inr ⟨rfl, by rw [hparent]; rfl⟩
        · -- Otherwise the parent would be in the scope as well.
          refine .inl ⟨wf.mem_ids_of_mem_children hn, fun hmem => hout ?_⟩
          obtain ⟨node, cs, hid, htree⟩ := wf.exists_treeAt hroot
          rw [htree, ids_tree, List.mem_cons, hid, or_iff_right hne] at hmem
          obtain ⟨q, hq, hpq⟩ := wf.exists_parent htree hmem
          obtain rfl : q = p := Option.some.inj (hpq.symm.trans hparent)
          exact hq
      · exact absurd rfl hp
    · rintro (⟨-, hout⟩ | ⟨rfl, -⟩)
      · exact .inl ⟨wf.mem_ids_of_children hn, fun hmem => hout (wf.mem_of_parent?_mem hparent hmem)⟩
      · exact .inl ⟨wf.mem_ids_of_children hn, wf.parent?_not_mem hparent⟩
  · exact .inr ⟨rfl, by rw [wf.parent?_eq_some_iff.mpr hp]; rfl⟩
  · rcases ho with ⟨-, hout⟩ | ⟨-, hparent⟩
    · exact absurd (wf.mem_treeAt_self hroot) hout
    · exact hname hparent
  · refine hinner n l hl ?_ hne
    by_contra hout
    exact hn (.inl ⟨wf.mem_ids_of_label? hl, hout⟩)

/-- The fence around the scope at `root`, with nothing asked of the labels there. -/
def fence (d : Document) (root : NodeId) (guarded : Prop) : Fence :=
  ⟨root, d.Outside root, guarded, fun _ => True, fun _ => True⟩

theorem fenced_fence (wf : d.WellFormed) (hroot : root ∈ d.ids) (guarded : Prop)
    (hname : (d.parent? root).isSome → ∀ name ∈ [Word.text, Word.run, Word.row],
      d.isNamed root name = false) : Fenced (d.fence root guarded) d :=
  have hall : Outlasts fun _ => True := ⟨fun _ => trivial, fun _ => trivial, fun _ => trivial⟩
  fenced_outside wf hroot rfl hname ⟨hall, hall, fun _ _ => trivial⟩ (fun _ _ _ _ _ => trivial)
    fun _ _ => trivial

/-- The scope has a parent if it is outside, and the other way round. -/
theorem WellFormed.outside_self_iff (wf : d.WellFormed) (hroot : root ∈ d.ids) :
    d.Outside root root ↔ (d.parent? root).isSome :=
  ⟨fun h => h.elim (fun hout => absurd (wf.mem_treeAt_self hroot) hout.2) fun h => h.2, fun h => .inr ⟨rfl, h⟩⟩

namespace Fenced

/-- A change after which every edge is one that was there or one on this side of the fence, and every label
one that was there or one that may be on this side. -/
theorem of_children (h : Fenced F d) (hgrows : d.Grows d')
    (hlabel : d'.label? F.root = d.label? F.root ∨
      ¬ F.outside F.root ∧ ∀ l, d'.label? F.root = some l → F.top l)
    (hinner : ∀ n l, d'.label? n = some l → n ≠ F.root → d.label? n = some l ∨ F.inner l)
    (hedges : ∀ p n, n ∈ d'.children p →
      n ∈ d.children p ∨ (p = F.root ∨ ¬ F.outside p) ∧ ¬ F.outside n ∧ n ≠ F.root)
    (hsame : F.guarded → ∀ n, F.outside n → n ≠ F.root →
      d'.label? n = d.label? n ∧ d'.children n = d.children n) : Confined F d d' := by
  have hroot : F.outside F.root → d'.label? F.root = d.label? F.root := fun ho =>
    hlabel.resolve_right fun hnot => hnot.1 ho
  have hfenced : Fenced F d' := by
    refine ⟨hgrows.wellFormed, fun n hn => hgrows.mem_ids n (h.mem_ids n hn), hgrows.mem_ids _ h.root_mem,
      fun p n hp hn => ?_, fun n hn => ?_, fun p hp => ?_, fun ho name hname => ?_, h.tolerant,
      fun n l hl hn hne => ?_, fun l hl ho => ?_⟩
    · rcases hedges p n hn with hn | ⟨hp', hn, -⟩
      · exact h.iff_of_mem_children p n hp hn
      · exact iff_of_false (hp'.resolve_left hp) hn
    · rcases hedges F.root n hn with hn | ⟨-, hn, -⟩
      · exact h.not_of_mem_children n hn
      · exact hn
    · rcases hedges p F.root hp with hp | ⟨-, -, hne⟩
      · exact h.of_mem_children p hp
      · exact absurd rfl hne
    · rw [isNamed, Document.name?, hroot ho]
      exact h.not_named ho name hname
    · rcases hinner n l hl hne with hl | hl
      · exact h.inner n l hl hn hne
      · exact hl
    · rcases hlabel with he | ⟨-, htop⟩
      · exact h.top l (he.symm.trans hl) ho
      · exact htop l hl
  refine ⟨hgrows, hfenced, hroot, fun hF n hn hne => ⟨(hsame hF n hn hne).1, ?_, (hsame hF n hn hne).2⟩⟩
  -- A parent outside of the scope has the same children.
  refine h.wellFormed.parent?_congr hgrows.wellFormed fun p => ⟨fun hmem => ?_, fun hmem => ?_⟩
  · have hp : p ≠ F.root := by
      rintro rfl
      exact hfenced.not_of_mem_children n hmem hn
    rwa [(hsame hF p ((hfenced.iff_of_mem_children p n hp hmem).mpr hn) hp).2] at hmem
  · have hp : p ≠ F.root := by
      rintro rfl
      exact h.not_of_mem_children n hmem hn
    rwa [(hsame hF p ((h.iff_of_mem_children p n hp hmem).mpr hn) hp).2]

theorem not_of_child (h : Fenced F d) (hn : n ∈ d.children p) (hp : p = F.root ∨ ¬ F.outside p) : ¬ F.outside n := by
  by_cases he : p = F.root
  · subst he
    exact h.not_of_mem_children n hn
  · rwa [← h.iff_of_mem_children p n he hn, ← or_iff_right (b := ¬ F.outside p) he]

theorem of_child (h : Fenced F d) (hn : n ∈ d.children p) (ho : F.outside n) : F.outside p := by
  by_contra hp
  exact h.not_of_child hn (.inr hp) ho

/-- A new node is on this side of the fence. -/
theorem not_of_fresh (h : Fenced F d) (hn : n ∉ d.ids) : ¬ F.outside n ∧ n ≠ F.root :=
  ⟨fun ho => hn (h.mem_ids n ho), fun he => hn (he ▸ h.root_mem)⟩

/-- The parent of a node on this side of the fence, and its other children. -/
theorem sibling (h : Fenced F d) (hn : n ∈ d.children p) (ho : ¬ F.outside n) : p = F.root ∨ ¬ F.outside p := by
  by_cases he : p = F.root
  · exact .inl he
  · exact .inr fun hp => ho ((h.iff_of_mem_children p n he hn).mp hp)

theorem ne_root (h : Fenced F d) (hn : n ∈ d.children p) (ho : ¬ F.outside n) : n ≠ F.root := by
  rintro rfl
  exact ho (h.of_mem_children p hn)

/-- The siblings of a node on this side of the fence. -/
theorem of_mem_siblings (h : Fenced F d) {m : NodeId} (hm : m ∈ d.siblings n) (hn : ¬ F.outside n) :
    Enclosed F d m ∧ m ≠ F.root := by
  obtain ⟨p, hn', hm⟩ := h.wellFormed.exists_of_mem_siblings hm
  have hnot := h.not_of_child hm (h.sibling hn' hn)
  exact ⟨⟨h.wellFormed.mem_ids_of_mem_children hm, hnot⟩, h.ne_root hm hnot⟩

/-- The scope is not below a node on this side of the fence. -/
theorem not_mem_treeAt (h : Fenced F d) (hn : ¬ F.outside n) (hne : n ≠ F.root) :
    F.root ∉ Xml.ids (d.treeAt n) := by
  intro hmem
  have := h.wellFormed.of_mem_treeAt (P := fun i => i = F.root ∨ F.outside i)
    (fun p i hi => ?_) hmem (.inl rfl)
  · exact this.elim hne hn
  · rintro (rfl | ho)
    · exact .inr (h.of_child hi (h.of_mem_children p hi))
    · exact .inr (h.of_child hi ho)

/-- Nothing below a node on this side of the fence is outside. -/
theorem not_of_mem_treeAt (h : Fenced F d) (hn : ¬ F.outside n) {m : NodeId}
    (hm : m ∈ Xml.ids (d.treeAt n)) : ¬ F.outside m :=
  fun ho => hn (h.wellFormed.of_mem_treeAt (P := F.outside) (fun _ _ hi => h.of_child hi) hm ho)

/-- Nothing outside is above a node on this side of the fence, unless the scope is outside. -/
theorem not_of_isAncestor (h : Fenced F d) (hroot : ¬ F.outside F.root) (hn : ¬ F.outside n)
    (hp : d.isAncestor p n = true) : ¬ F.outside p := by
  refine h.wellFormed.of_mem_treeAt (P := fun i => ¬ F.outside i) (fun q i hi ho => ?_)
    (h.wellFormed.mem_treeAt_of_isAncestor hp) hn
  rcases h.sibling hi ho with rfl | hq
  · exact hroot
  · exact hq

/-- What is below the scope is on this side of the fence. -/
theorem not_of_mem_root (h : Fenced F d) (hn : n ∈ Xml.ids (d.treeAt F.root)) (hne : n ≠ F.root) :
    ¬ F.outside n := by
  intro ho
  refine (h.wellFormed.of_mem_treeAt (P := fun i => F.outside i ∧ i ≠ F.root) ?_ hn ⟨ho, hne⟩).2 rfl
  rintro p i hi ⟨ho, -⟩
  refine ⟨h.of_child hi ho, ?_⟩
  rintro rfl
  exact h.not_of_mem_children i hi ho

/-- The way from a node on this side of the fence to one on the other goes through the scope. -/
theorem mem_treeAt_root (h : Fenced F d) (hn : ¬ F.outside n) (hp : F.outside p)
    (hmem : n ∈ Xml.ids (d.treeAt p)) : n ∈ Xml.ids (d.treeAt F.root) := by
  have wf := h.wellFormed
  by_contra hout
  refine (wf.of_mem_treeAt (P := fun i => ¬ F.outside i ∧ i ∉ Xml.ids (d.treeAt F.root)) ?_ hmem
    ⟨hn, hout⟩).1 hp
  rintro q i hi ⟨hi', hout⟩
  have hq : q ∉ Xml.ids (d.treeAt F.root) := fun hq =>
    hout (wf.mem_of_parent?_mem (wf.parent?_eq_some_iff.mpr hi) hq)
  refine ⟨(h.sibling hi hi').resolve_left ?_, hq⟩
  rintro rfl
  exact hq (wf.mem_treeAt_self h.root_mem)

/-- The nearest node above two nodes on this side of the fence is the scope or on this side. -/
theorem of_commonAncestor? (h : Fenced F d) {m : NodeId} (hn : ¬ F.outside n) (hm : ¬ F.outside m)
    (hp : d.commonAncestor? n m = some p) : p = F.root ∨ ¬ F.outside p := by
  have wf := h.wellFormed
  by_contra hnot
  rw [not_or, not_not] at hnot
  obtain ⟨hne, ho⟩ := hnot
  -- Both are below the scope, and the other node is above it.
  have hbelow : ∀ i, ¬ F.outside i → p ∈ d.ancestors i → ∃ inner,
      d.ancestors i = inner ++ F.root :: d.ancestors F.root ∧
        ∀ j ∈ inner, j ∈ Xml.ids (d.treeAt F.root) ∧ j ≠ F.root := by
    intro i hi hpi
    have hmem := h.mem_treeAt_root hi ho
      (wf.mem_treeAt_of_isAncestor (List.contains_iff_mem.mpr hpi))
    obtain ⟨A, X, hid, hA⟩ := wf.exists_treeAt h.root_mem
    have hnd := wf.nodup_treeAt F.root
    rw [hA, ids_tree, List.nodup_cons, hid] at hnd
    rw [hA, ids_tree, List.mem_cons, hid] at hmem
    rcases hmem with rfl | hmem
    · -- Nothing is above the scope if it is on this side itself.
      have hnone : d.ancestors F.root = [] := by
        cases hup : d.ancestors F.root with
        | nil => rfl
        | cons q _ =>
          refine absurd (h.of_mem_children q (wf.parent?_eq_some_iff.mp ?_)) hi
          rw [Document.parent?, hup]
          rfl
      rw [hnone] at hpi
      cases hpi
    · obtain ⟨inner, hup, hinner⟩ := wf.ancestors_below hA hmem
      refine ⟨inner, hup, fun j hj => ⟨?_, ?_⟩⟩
      · rw [hA, ids_tree]
        exact List.mem_cons_of_mem _ (hinner j hj)
      · rintro rfl
        exact hnd.1 (hinner _ hj)
  have hfind := hp
  rw [Document.commonAncestor?] at hfind
  obtain ⟨inner, hup, -⟩ := hbelow n hn (by simpa using List.find?_some hfind)
  obtain ⟨inner', hup', hinner'⟩ := hbelow m hm (List.mem_of_find?_eq_some hfind)
  rw [hup', List.find?_append] at hfind
  cases hin : inner'.find? (d.ancestors n).contains with
  | some q =>
    rw [hin] at hfind
    obtain rfl : q = p := Option.some.inj hfind
    obtain ⟨hmem, hq⟩ := hinner' q (List.mem_of_find?_eq_some hin)
    exact h.not_of_mem_root hmem hq ho
  | none =>
    rw [hin, Option.none_or, List.find?_cons_of_pos (by simp [hup])] at hfind
    exact hne (Option.some.inj hfind).symm

/-- What is not on the other side of the fence is no child of a node there, but of the scope. -/
theorem not_child (h : Fenced F d) (hn : ¬ F.outside n) {m : NodeId} (hm : F.outside m) (hne : m ≠ F.root) :
    n ∉ d.children m :=
  fun hmem => hn ((h.iff_of_mem_children m n hne hmem).mp hm)

/-! ## Changes -/

/-- A label after a change that makes no nodes. -/
theorem label?_of_fresh_eq (hgrows : d.Grows d') (hfresh : d'.fresh = d.fresh)
    (hlabel : ∀ n ∈ d.ids, d'.label? n = d.label? n) {l : Label} (hl : d'.label? n = some l) :
    d.label? n = some l := by
  have hmem := hgrows.wellFormed.mem_ids_of_label? hl
  have hlt := hgrows.wellFormed.lt_fresh n hmem
  rwa [← hlabel n ((hgrows.mem_or_fresh n hmem).resolve_right (by omega))]

section Changes

variable (h : Fenced F d)
include h

theorem refl : Confined F d d :=
  ⟨.refl h.wellFormed, h, fun _ => rfl, fun _ n _ _ => .refl d n⟩

theorem detach (hn : F.guarded → ¬ F.outside n) : Confined F d (d.detach n) := by
  have wf := h.wellFormed
  refine h.of_children (wf.grows_detach n) (.inl (label?_detach wf n _))
    (fun m l hl _ => .inl ((label?_detach wf n m).symm.trans hl)) (fun p m hm => ?_) fun hF m hm hne => ?_
  · rw [wf.children_detach] at hm
    exact .inl (List.mem_filter.mp hm).1
  · have hm := wf.unchanged_detach (fun he : m = n => hn hF (he ▸ hm)) (h.not_child (hn hF) hm hne)
    exact ⟨hm.label?_eq, hm.children_eq⟩

theorem takeChildren (hn : F.guarded → ¬ F.outside n) : Confined F d (d.takeChildren n).2 := by
  have wf := h.wellFormed
  refine h.of_children (wf.grows_takeChildren n) (.inl (wf.label?_takeChildren n h.root_mem))
    (fun m l hl _ => .inl (label?_of_fresh_eq (wf.grows_takeChildren n) (wf.fresh_takeChildren n)
      (fun m hm => wf.label?_takeChildren n hm) hl)) (fun p m hm => ?_) fun hF m hm _ => ?_
  · rw [wf.children_takeChildren] at hm
    split at hm
    · cases hm
    · exact .inl hm
  · refine ⟨wf.label?_takeChildren n (h.mem_ids m hm), ?_⟩
    rw [wf.children_takeChildren, if_neg fun he : m = n => hn hF (he ▸ hm)]

theorem relabel (hn : ¬ F.outside n) {change : Label → Label}
    (hchange : ∀ K : Label → Prop, Outlasts K → ∀ l, K l → K (change l)) :
    Confined F d (d.relabel n change) := by
  have wf := h.wellFormed
  refine h.of_children (wf.grows_relabel n change) ?_ (fun m l hl hne => ?_) (fun p m hm => ?_)
    fun _ m hm _ => ?_
  · by_cases hroot : F.root = n
    · subst hroot
      refine .inr ⟨hn, fun l hl => ?_⟩
      rw [wf.label?_relabel_self] at hl
      obtain ⟨l₀, hl₀, rfl⟩ := Option.map_eq_some_iff.mp hl
      exact hchange F.top h.tolerant.top l₀ (h.top l₀ hl₀ hn)
    · exact .inl (wf.label?_relabel_ne hroot change)
  · by_cases hm : m = n
    · subst hm
      rw [wf.label?_relabel_self] at hl
      obtain ⟨l₀, hl₀, rfl⟩ := Option.map_eq_some_iff.mp hl
      exact .inr (hchange F.inner h.tolerant.inner l₀ (h.inner m l₀ hl₀ hn hne))
    · exact .inl ((wf.label?_relabel_ne hm change).symm.trans hl)
  · rw [wf.children_relabel] at hm
    exact .inl hm
  · exact ⟨wf.label?_relabel_ne (fun he : m = n => hn (he ▸ hm)) change, wf.children_relabel n m change⟩

theorem setAttribute (hn : ¬ F.outside n) (key value : String) :
    Confined F d (d.setAttribute n key value) :=
  h.relabel hn fun _ hK _ hl => hK.setAttribute hl

theorem eraseAttribute (hn : ¬ F.outside n) (key : String) : Confined F d (d.eraseAttribute n key) :=
  h.relabel hn fun _ hK _ hl => hK.eraseAttribute hl

/-- A change that changes nothing about the nodes that are there, and makes nodes with labels that may be on
this side. -/
theorem of_leaves (hleaves : d.Leaves d' (· ∈ d.ids))
    (hnew : ∀ n l, n ∉ d.ids → d'.label? n = some l → F.inner l) : Confined F d d' := by
  have hgrows := hleaves.grows
  have hsame := fun n hn => hleaves.unchanged n hn
  refine h.of_children hgrows (.inl (hsame _ h.root_mem).label?_eq) (fun n l hl _ => ?_) (fun p n hn => ?_)
    fun _ n hn _ => ⟨(hsame n (h.mem_ids n hn)).label?_eq, (hsame n (h.mem_ids n hn)).children_eq⟩
  · by_cases hmem : n ∈ d.ids
    · exact .inl ((hsame n hmem).label?_eq.symm.trans hl)
    · exact .inr (hnew n l hmem hl)
  · by_cases hmem : n ∈ d.ids
    · have hp := (hsame n hmem).parent?_eq
      rw [hgrows.wellFormed.parent?_eq_some_iff.mpr hn] at hp
      exact .inl (h.wellFormed.parent?_eq_some_iff.mp hp.symm)
    · refine .inr ⟨.inr fun ho => hmem ?_, h.not_of_fresh hmem⟩
      rw [(hsame p (h.mem_ids p ho)).children_eq] at hn
      exact h.wellFormed.mem_ids_of_mem_children hn

theorem addCopies {copies : Forest Label} (hcopies : ∀ l ∈ copies.toList, F.inner l) :
    Confined F d (d.addCopies copies) := by
  have wf := h.wellFormed
  refine h.of_leaves (wf.leaves_addCopies (fun _ hm => hm) copies) fun n l hn hl => hcopies l ?_
  exact wf.mem_of_label?_addCopies hn hl

/-- Making an element. -/
theorem createElement (name : String) (hname : name ∈ Word.madeNames) :
    Confined F d (d.createElement name).2 :=
  h.addCopies fun l hl => by
    obtain rfl : l = .element ⟨name, []⟩ := by simpa [tree, toList] using hl
    exact h.tolerant.made name hname

theorem createText (content : String) : Confined F d (d.createText content).2 :=
  h.addCopies fun l hl => by
    obtain rfl : l = .text content := by simpa [tree, toList] using hl
    exact h.tolerant.inner.text content

/-- The labels in a tree on this side of the fence. -/
theorem inner_of_mem_labelsAt (hn : ¬ F.outside n) (hne : n ≠ F.root) {l : Label}
    (hl : l ∈ (d.labelsAt n).toList) : F.inner l := by
  obtain ⟨node, hnode, rfl⟩ := mem_labels_iff.mp hl
  have hmem : node.id ∈ Xml.ids (d.treeAt n) := List.mem_map_of_mem hnode
  refine h.inner node.id _ (h.wellFormed.label?_of_mem_treeAt hnode) (h.not_of_mem_treeAt hn hmem) ?_
  rintro he
  exact h.not_mem_treeAt hn hne (he ▸ hmem)

theorem append (hr : d.Receives n t) (ht : t = F.root ∨ ¬ F.outside t) (hn : ¬ F.outside n)
    (hne : n ≠ F.root) : Confined F d (d.append t n) := by
  have wf := h.wellFormed
  have hfresh : (d.append t n).fresh = d.fresh := by rw [wf.append_eq hr, remake_fresh]
  refine h.of_children (wf.grows_append hr) (.inl (wf.label?_append hr h.root_mem))
    (fun m l hl _ => .inl (label?_of_fresh_eq (wf.grows_append hr) hfresh
      (fun m hm => wf.label?_append hr hm) hl)) (fun p m hm => ?_) fun _ m hm hne => ?_
  · rw [wf.children_append hr] at hm
    split at hm
    · next hp =>
      subst hp
      rcases List.mem_append.mp hm with hm | hm
      · exact .inl hm
      · obtain rfl := List.mem_singleton.mp hm
        exact .inr ⟨ht, hn, hne⟩
    · exact .inl hm
  · refine ⟨wf.label?_append hr (h.mem_ids m hm), ?_⟩
    rw [wf.children_append hr, if_neg]
    rintro rfl
    exact ht.elim hne fun ht => ht hm

theorem insertBeside (hr : d.Receives n t) {put : Forest Node → Forest Node → Forest Node}
    (hput : ∀ f g, put f g = f ++ g ∨ put f g = g ++ f) (ht : ¬ F.outside t) (hn : ¬ F.outside n)
    (hne : n ≠ F.root) : Confined F d (d.insertBeside put t n) := by
  have wf := h.wellFormed
  cases hp : d.parent? t with
  | none =>
    have hself : d.insertBeside put t n = d := by rw [Document.insertBeside, hp]
    rw [hself]
    exact h.refl
  | some q =>
    have hsome : (d.parent? t).isSome := by rw [hp]; rfl
    have htq := wf.parent?_eq_some_iff.mp hp
    have hfresh : (d.insertBeside put t n).fresh = d.fresh := by
      rw [wf.insertBeside_eq hr hsome, remake_fresh]
    refine h.of_children (wf.grows_beside hr hput)
      (.inl (wf.label?_insertBeside hr hsome hput h.root_mem))
      (fun m l hl _ => .inl (label?_of_fresh_eq (wf.grows_beside hr hput) hfresh
        (fun m hm => wf.label?_insertBeside hr hsome hput hm) hl)) (fun p m hm => ?_) fun _ m hm hne => ?_
    · obtain ⟨a, as, rfl, ha⟩ := wf.exists_treeAt hr.target_mem_ids
      obtain ⟨b, bs, rfl, hb⟩ := wf.exists_treeAt hr.mem_ids
      rw [wf.children_insertBeside hr hsome hput, mem_flatMap_iff, ha, hb] at hm
      rcases hm with ⟨hm, -⟩ | ⟨htp, hm⟩
      · exact .inl hm
      · have hm : m = b.id ∨ m = a.id := by
          rcases hput (tree b bs) (tree a as) with he | he <;> rw [he] at hm <;>
            simpa [or_comm] using hm
        rcases hm with rfl | rfl
        · exact .inr ⟨h.sibling htp ht, hn, hne⟩
        · exact .inl htp
    · refine ⟨wf.label?_insertBeside hr hsome hput (h.mem_ids m hm), ?_⟩
      rw [wf.children_insertBeside hr hsome hput, flatMap_eq_self (h.not_child ht hm hne)]

/-- Putting the parts of a tree in its place. -/
theorem settle {δ : Division} {f : Forest Node} (hc : Enclosed F d c) (hne : c ≠ F.root)
    (hle : d.fresh ≤ δ.fresh)
    (hperm : (Xml.ids (f ++ δ.dropped)).Perm
      (Xml.ids (d.treeAt c) ++ (List.range' d.fresh (δ.fresh - d.fresh)).map NodeId.mk))
    (hlabels : Labelled (· ∈ (d.labelsAt c).toList) (f ++ δ.dropped)) :
    Confined F d (d.settle c δ f) ∧
      ∀ m ∈ Xml.ids (f ++ δ.dropped), Enclosed F (d.settle c δ f) m := by
  have wf := h.wellFormed
  obtain ⟨hc, ho⟩ := hc
  have hin : ∀ node ∈ (f ++ δ.dropped).toList, F.inner node.label := fun node hnode =>
    h.inner_of_mem_labelsAt ho hne (each_iff_forall.mp hlabels node hnode)
  obtain ⟨a, as, rfl, ha⟩ := wf.exists_treeAt hc
  obtain ⟨hgrows, hat⟩ := wf.settle_spec ha hle (ha ▸ hperm)
  have hroot := h.not_mem_treeAt ho hne
  -- The parts are made of nodes on this side of the fence.
  have hside : ∀ m ∈ Xml.ids (f ++ δ.dropped), ¬ F.outside m ∧ m ≠ F.root := by
    intro m hm
    rcases List.mem_append.mp (hperm.mem_iff.mp hm) with hm | hm
    · exact ⟨h.not_of_mem_treeAt ho hm, fun he => hroot (he ▸ hm)⟩
    · obtain ⟨i, hi, rfl⟩ := List.mem_map.mp hm
      exact h.not_of_fresh fun hmem =>
        Nat.not_lt.mpr (List.mem_range'_1.mp hi).1 (wf.lt_fresh _ hmem)
  have hchildren : ∀ m ∈ d.ids, m ∉ Xml.ids (d.treeAt a.id) → (d.settle a.id δ f).children m =
      (d.children m).flatMap fun i => if i = a.id then f.roots.map Node.id else [i] := by
    intro m hm hmt
    have hma : m ≠ a.id := fun he => hmt (he ▸ wf.mem_treeAt_self hm)
    exact wf.children_of_replace (hat m hm (ha ▸ hmt)) hma ha
  have hlabel : ∀ m ∈ d.ids, m ∉ Xml.ids (d.treeAt a.id) →
      (d.settle a.id δ f).label? m = d.label? m := by
    intro m hm hmt
    have hma : m ≠ a.id := fun he => hmt (he ▸ wf.mem_treeAt_self hm)
    exact wf.label?_of_replace hm (hat m hm (ha ▸ hmt)) fun he => absurd he hma
  refine ⟨h.of_children hgrows (.inl (hlabel _ h.root_mem hroot)) (fun m l hl _ => ?_) (fun p n hn => ?_)
    fun _ m hm hne => ?_, fun m hm => ⟨wf.mem_ids_settle ha hgrows hm, (hside m hm).1⟩⟩
  · -- A label is one of the parts, or it was there.
    obtain ⟨node, hnode, rfl⟩ := List.mem_map.mp (hgrows.wellFormed.mem_ids_of_label? hl)
    obtain rfl : node.label = l := Option.some.inj ((hgrows.wellFormed.label?_of_mem hnode).symm.trans hl)
    have hnode : node ∈ (δ.dropped ++ d.trees.replace (·.id == a.id) fun _ _ => f).toList := hnode
    rw [toList_append, List.mem_append] at hnode
    rw [toList_append, List.forall_mem_append] at hin
    rcases hnode with hnode | hnode
    · exact .inr (hin.2 node hnode)
    · rcases mem_toList_replace hnode with hnode | hnode
      · exact .inl (wf.label?_of_mem hnode)
      · exact .inr (hin.1 node hnode)
  · by_cases hp : p ∈ Xml.ids (f ++ δ.dropped)
    · exact .inr ⟨.inr (hside p hp).1, hside n (wf.mem_ids_of_mem_children_settle ha hgrows hp hn)⟩
    · -- Any other node was there before, and the tree was at most one of those below it.
      have hpt : p ∉ Xml.ids (d.treeAt a.id) := fun hmem =>
        hp (hperm.mem_iff.mpr (List.mem_append_left _ hmem))
      have hpd : p ∈ d.ids := by
        rw [ids_append, List.mem_append, not_or] at hp
        have hmem : p ∈ Xml.ids (δ.dropped ++ d.trees.replace (·.id == a.id) fun _ _ => f) :=
          hgrows.wellFormed.mem_ids_of_children hn
        rw [ids_append, List.mem_append] at hmem
        rcases hmem with hmem | hmem
        · exact absurd hmem hp.2
        · exact (mem_ids_replace hmem).resolve_right fun ⟨_, _, _, hmem⟩ => hp.1 hmem
      rw [hchildren p hpd hpt, mem_flatMap_iff] at hn
      rcases hn with ⟨hn, -⟩ | ⟨hap, hn⟩
      · exact .inl hn
      · refine .inr ⟨h.sibling hap ho, hside n ?_⟩
        rw [ids_append]
        exact List.mem_append_left _ ((roots_ids_sublist f).subset hn)
  · have hmt : m ∉ Xml.ids (d.treeAt a.id) := fun hmem => h.not_of_mem_treeAt ho hmem hm
    refine ⟨hlabel m (h.mem_ids m hm) hmt, ?_⟩
    rw [hchildren m (h.mem_ids m hm) hmt, flatMap_eq_self (h.not_child ho hm hne)]

/-! ## New trees -/

variable {m : NodeId} {f : Forest Node}

theorem of_makes (hm : d.Makes d' m f) : ¬ F.outside m ∧ m ≠ F.root :=
  h.not_of_fresh fun hmem => hm.not_mem h.wellFormed hmem
    (hm.treeAt_eq ▸ hm.extends_eq.grows.wellFormed.mem_treeAt_self hm.mem_ids)

/-- Putting a new tree behind the children of a node. -/
theorem appendNew (hd : Confined F d d') (hm : d.Makes d' m f) (hn : n ∈ d.ids)
    (hside : n = F.root ∨ ¬ F.outside n) :
    Confined F d (d'.append n m) ∧ Enclosed F (d'.append n m) m := by
  obtain ⟨hnot, hne⟩ := h.of_makes hm
  have hput := hd.fenced.append (hm.receives h.wellFormed hn) hside hnot hne
  exact ⟨hd.trans hput, hput.enclosed ⟨hm.mem_ids, hnot⟩⟩

/-- Putting a new tree beside a node. -/
theorem insertNew (hd : Confined F d d') (hm : d.Makes d' m f) (hn : Enclosed F d n)
    {j : Forest Node → Forest Node → Forest Node} (hput : ∀ f g, j f g = f ++ g ∨ j f g = g ++ f) :
    Confined F d (d'.insertBeside j n m) ∧ Enclosed F (d'.insertBeside j n m) m := by
  obtain ⟨hnot, hne⟩ := h.of_makes hm
  have hput := hd.fenced.insertBeside (hm.receives h.wellFormed hn.mem_ids) hput hn.not_outside hnot hne
  exact ⟨hd.trans hput, hput.enclosed ⟨hm.mem_ids, hnot⟩⟩

end Changes

end Fenced

/-- Changes one after another. -/
theorem Fenced.foldl {α : Type} {f : Document → α → Document} {l : List α} (h : Fenced F d)
    (hf : ∀ d', Confined F d d' → ∀ a ∈ l, Confined F d' (f d' a)) :
    Confined F d (l.foldl f d) := by
  induction l generalizing d with
  | nil => exact h.refl
  | cons a l ih =>
    have ha := hf d h.refl a (List.mem_cons_self ..)
    exact ha.trans (ih ha.fenced fun d' hd' b hb => hf d' (ha.trans hd') b (List.mem_cons_of_mem _ hb))

namespace Confined

/-- What is on the other side of a guarded fence stays as it is. -/
theorem leaves (h : Confined F d d') (hguarded : F.guarded) {P : NodeId → Prop}
    (hP : ∀ n, P n → F.outside n ∧ n ≠ F.root) : d.Leaves d' P :=
  ⟨h.grows, fun n hn => h.unchanged hguarded n (hP n hn).1 (hP n hn).2⟩

/-- The scope stays where it is. -/
theorem parent?_root (h : Confined F d d') (hd : Fenced F d) (hguarded : F.guarded)
    (houtside : F.outside F.root ↔ (d.parent? F.root).isSome) :
    d'.parent? F.root = d.parent? F.root := by
  have wf' := h.fenced.wellFormed
  cases hp : d.parent? F.root with
  | none =>
    refine Option.eq_none_iff_forall_ne_some.mpr fun p hp' => ?_
    have ho := houtside.mp (h.fenced.of_mem_children p (wf'.parent?_eq_some_iff.mp hp'))
    rw [hp] at ho
    cases ho
  | some p =>
    have hmem := hd.wellFormed.parent?_eq_some_iff.mp hp
    have hne : p ≠ F.root := by
      rintro rfl
      exact hd.wellFormed.not_mem_children_self _ hmem
    have ho := (hd.iff_of_mem_children p F.root hne hmem).mpr (houtside.mpr (by rw [hp]; rfl))
    rwa [wf'.parent?_eq_some_iff, (h.unchanged hguarded p ho hne).children_eq]

end Confined

end Xml.Document

end WordTemplate
