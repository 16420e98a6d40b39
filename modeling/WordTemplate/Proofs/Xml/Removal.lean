import Mathlib.Data.List.Nodup
import Mathlib.Data.List.Perm.Basic
import WordTemplate.Proofs.Xml.Each
import WordTemplate.Proofs.Xml.Editing
import WordTemplate.Proofs.Xml.Moves

/-!
# Taking several nodes out

A document from which some nodes were taken out is determined by which ones those were: `TakesOut d d' out`
says that they are the nodes that `out` accepts and that nothing else was done.

* `TakesOut.detach`, `TakesOut.agree`: taking out one more node, and that two results are alike.
* `TakesOut.mem_treeAt`, `TakesOut.ancestors_eq`: what is not below a node that was taken out keeps its place.
* `TakesOut.descendants_eq`: what is left below a node, in the order in which it was there.
-/

namespace WordTemplate.Xml

open Forest

/-- A part of a list without repetitions is told by what is in it. -/
theorem eq_filter_of_sublist {l l' : List NodeId} (h : l'.Sublist l) (hnodup : l.Nodup) :
    l' = l.filter l'.contains := by
  have hself : l'.filter l'.contains = l' := List.filter_eq_self.mpr fun i hi => by simpa using hi
  have hsub := hself ▸ h.filter l'.contains
  refine hsub.eq_of_length (List.Perm.length_eq ?_)
  refine (List.perm_ext_iff_of_nodup (hnodup.sublist h) (hnodup.filter _)).mpr fun i => ?_
  simp only [List.mem_filter, List.contains_iff_mem]
  exact ⟨fun hi => ⟨h.mem hi, hi⟩, And.right⟩

theorem ids_prune_sublist (f : Forest Node) (hnodup : (ids f).Nodup) (n : NodeId) :
    (ids (f.prune (·.id == n))).Sublist (ids f) := by
  by_cases hn : n ∈ ids f
  · obtain ⟨up, l, node, cs, r, hf, rfl⟩ := exists_spot hn
    rw [prune_spot hnodup hf, hf, ids_wrap, ids_wrap, ids_append, ids_append, ids_cons]
    refine (List.Sublist.refl _).append (List.Sublist.append ?_ (.refl _))
    exact (List.Sublist.refl _).append ((List.sublist_append_right _ _).cons _)
  · rw [prune_eq_self_of_not_mem hn]

namespace Document

variable {d d' d'' : Document} {out : NodeId → Bool} {n m p x : NodeId}

/-! ## Paths -/

theorem WellFormed.mem_ids_of_below (wf : d.WellFormed) (h : n ∈ Xml.ids (d.treeAt p)) : p ∈ d.ids := by
  by_contra hp
  simp [wf.treeAt_eq_nil hp] at h

/-- A node below another one is at or below one of its children. -/
theorem WellFormed.exists_child (wf : d.WellFormed) (h : n ∈ Xml.ids (d.treeAt p)) (hne : n ≠ p) :
    ∃ c ∈ d.children p, n ∈ Xml.ids (d.treeAt c) := by
  have key := wf.forall_mem_treeAt (P := fun i => i = p ∨ ∃ c ∈ d.children p, i ∈ Xml.ids (d.treeAt c))
    (fun q i hi hq => ?_) h (.inl rfl)
  · exact key.resolve_left hne
  · right
    rcases hq with rfl | ⟨c, hc, hq⟩
    · exact ⟨i, hi, wf.mem_treeAt_self (wf.mem_ids_of_mem_children hi)⟩
    · exact ⟨c, hc, wf.mem_treeAt_trans hq (wf.mem_treeAt_of_mem_children hi)⟩

/-- Of two nodes above a node, one is above the other. -/
theorem WellFormed.mem_treeAt_total (wf : d.WellFormed) (hx : n ∈ Xml.ids (d.treeAt x))
    (hp : n ∈ Xml.ids (d.treeAt p)) : x ∈ Xml.ids (d.treeAt p) ∨ p ∈ Xml.ids (d.treeAt x) := by
  have hmem := wf.mem_ids_of_below hx
  refine (wf.forall_mem_treeAt (P := fun i => i ∈ Xml.ids (d.treeAt x) ∧
    (i ∈ Xml.ids (d.treeAt p) → x ∈ Xml.ids (d.treeAt p) ∨ p ∈ Xml.ids (d.treeAt x)))
    (fun q i hi hq => ?_) hx ⟨wf.mem_treeAt_self hmem, .inl⟩).2 hp
  have hix := wf.mem_treeAt_trans hq.1 (wf.mem_treeAt_of_mem_children hi)
  refine ⟨hix, fun hip => ?_⟩
  by_cases he : i = p
  · exact .inr (he ▸ hix)
  · obtain ⟨node, cs, rfl, ht⟩ := wf.exists_treeAt (wf.mem_ids_of_below hip)
    obtain ⟨q', hq', hparent⟩ := wf.exists_parent ht (by simpa [ht, he] using hip)
    obtain rfl : q' = q := Option.some.inj (hparent.symm.trans (wf.parent?_eq_some_iff.mpr hi))
    exact hq.2 hq'

/-- The nodes at and below a node stand together among those below another one. -/
theorem WellFormed.exists_descendants_eq (wf : d.WellFormed) (h : x ∈ d.descendants p) :
    ∃ u v, d.descendants p = u ++ (Xml.ids (d.treeAt x) ++ v) := by
  obtain ⟨A, cs, rfl, ht⟩ := wf.exists_treeAt (wf.mem_ids_of_below (wf.mem_descendants_iff.mp h).1)
  have hdescendants : d.descendants A.id = Xml.ids cs := by
    rw [descendants, nodesBelow, ht]
    rfl
  rw [hdescendants] at h ⊢
  obtain ⟨up, l, a, as, r, rfl, rfl⟩ := exists_spot h
  obtain ⟨l₀, r₀, outer, htrees, -⟩ := wf.exists_below ht
  rw [treeAt_eq wf htrees, ids_wrap, ids_append, ids_cons, ids_tree]
  exact ⟨(opening up).map Node.id ++ Xml.ids l, Xml.ids r ++ (closing up).map Node.id, by simp⟩

theorem Moves.mem_ids_iff (h : d.Moves d') : n ∈ d'.ids ↔ n ∈ d.ids := by
  refine ⟨fun hn => (h.grows.mem_or_fresh n hn).resolve_right fun hle => ?_, h.grows.mem_ids n⟩
  have hlt := h.grows.wellFormed.lt_fresh n hn
  rw [h.fresh_eq] at hlt
  omega

/-- Whether two documents have the same tree at every node. The trees at the top may come in another order. -/
structure SameTrees (d d' : Document) : Prop where
  root_eq : d'.root = d.root
  fresh_eq : d'.fresh = d.fresh
  declaration_eq : d'.declaration = d.declaration
  treeAt_eq : ∀ n, d'.treeAt n = d.treeAt n

/-! ## What is taken out -/

/-- Whether `d'` is `d` after the nodes that `out` accepts were taken out of their parents. -/
structure TakesOut (d d' : Document) (out : NodeId → Bool) : Prop where
  moves : d.Moves d'
  children_eq : ∀ n, d'.children n = (d.children n).filter (!out ·)
  ids_sublist : ∀ n, (Xml.ids (d'.treeAt n)).Sublist (Xml.ids (d.treeAt n))

namespace TakesOut

theorem refl (wf : d.WellFormed) : d.TakesOut d fun _ => false :=
  ⟨.refl wf, fun n => by simp, fun n => .refl _⟩

theorem detach (h : d.TakesOut d' out) (n : NodeId) : d.TakesOut (d'.detach n) fun m => out m || m == n where
  moves := h.moves.trans (h.moves.grows.wellFormed.moves_detach n)
  children_eq m := by
    rw [h.moves.grows.wellFormed.children_detach, h.children_eq, List.filter_filter]
    refine List.filter_congr fun i _ => ?_
    by_cases hi : i = n <;> simp [hi]
  ids_sublist m := by
    have wf' := h.moves.grows.wellFormed
    rw [wf'.treeAt_detach]
    split
    · next he => exact he ▸ h.ids_sublist m
    · exact (ids_prune_sublist _ (wf'.nodup_treeAt m) n).trans (h.ids_sublist m)

/-- Only which nodes are accepted counts. -/
theorem congr {out' : NodeId → Bool} (h : d.TakesOut d' out) (heq : ∀ n, out' n = out n) : d.TakesOut d' out' :=
  funext heq ▸ h

variable (h : d.TakesOut d' out)
include h

theorem parent?_eq (wf : d.WellFormed) (n : NodeId) :
    d'.parent? n = if out n then none else d.parent? n := by
  refine Option.ext fun p => ?_
  rw [h.moves.grows.wellFormed.parent?_eq_some_iff, h.children_eq, List.mem_filter, ← wf.parent?_eq_some_iff]
  cases out n <;> simp

/-- What is below a node stays there, or something at or above it was taken out. -/
theorem mem_treeAt (wf : d.WellFormed) (hn : n ∈ Xml.ids (d.treeAt p)) :
    n ∈ Xml.ids (d'.treeAt p) ∨ ∃ x, out x = true ∧ n ∈ Xml.ids (d.treeAt x) := by
  have wf' := h.moves.grows.wellFormed
  have hp := wf.mem_ids_of_below hn
  refine wf.forall_mem_treeAt
    (P := fun i => i ∈ Xml.ids (d'.treeAt p) ∨ ∃ x, out x = true ∧ i ∈ Xml.ids (d.treeAt x))
    (fun q i hi hq => ?_) hn (.inl (wf'.mem_treeAt_self (h.moves.grows.mem_ids p hp)))
  rcases hq with hq | ⟨x, hx, hq⟩
  · cases hout : out i with
    | true => exact .inr ⟨i, hout, wf.mem_treeAt_self (wf.mem_ids_of_mem_children hi)⟩
    | false =>
      refine .inl (wf'.mem_treeAt_trans hq (wf'.mem_treeAt_of_mem_children ?_))
      rw [h.children_eq, List.mem_filter]
      exact ⟨hi, by simp [hout]⟩
  · exact .inr ⟨x, hx, wf.mem_treeAt_trans hq (wf.mem_treeAt_of_mem_children hi)⟩

theorem mem_descendants (wf : d.WellFormed) (hn : n ∈ d.descendants p)
    (hstays : ∀ x, n ∈ Xml.ids (d.treeAt x) → out x = false) : n ∈ d'.descendants p := by
  obtain ⟨hbelow, hne⟩ := wf.mem_descendants_iff.mp hn
  refine h.moves.grows.wellFormed.mem_descendants_iff.mpr ⟨?_, hne⟩
  refine (h.mem_treeAt wf hbelow).resolve_right fun ⟨x, hx, hnx⟩ => ?_
  rw [hstays x hnx] at hx
  cases hx

/-- A node keeps the nodes above it if none of them was taken out. -/
theorem ancestors_eq (wf : d.WellFormed) (hn : ∀ x, n ∈ Xml.ids (d.treeAt x) → out x = false) :
    d'.ancestors n = d.ancestors n := by
  have wf' := h.moves.grows.wellFormed
  generalize hup : d.ancestors n = up
  induction up generalizing n with
  | nil =>
    have hnone : d'.parent? n = none := by
      rw [h.parent?_eq wf, parent?, hup]
      split <;> rfl
    exact List.head?_eq_none_iff.mp hnone
  | cons p up ih =>
    have hp : d.parent? n = some p := by rw [parent?, hup]; rfl
    have hself := hn n (wf.mem_treeAt_self (wf.mem_ids_of_parent? (by rw [hp]; rfl)))
    have hp' : d'.parent? n = some p := by rw [h.parent?_eq wf, hself]; simpa using hp
    rw [wf.ancestors_of_parent? hp, List.cons.injEq] at hup
    rw [wf'.ancestors_of_parent? hp', ih (fun x hx => hn x ?_) hup.2]
    exact wf.mem_treeAt_trans hx (wf.mem_treeAt_of_mem_children (wf.parent?_eq_some_iff.mp hp))

/-- What is left below a node. -/
theorem descendants_eq (wf : d.WellFormed) (p : NodeId) :
    d'.descendants p = (d.descendants p).filter (d'.descendants p).contains := by
  refine eq_filter_of_sublist ?_ wf.nodup_descendants
  have wf' := h.moves.grows.wellFormed
  have hsub := h.ids_sublist p
  by_cases hp : p ∈ d.ids
  · obtain ⟨A, cs, hA, ht⟩ := wf.exists_treeAt hp
    obtain ⟨A', cs', hA', ht'⟩ := wf'.exists_treeAt (h.moves.grows.mem_ids p hp)
    rw [ht, ht', ids_tree, ids_tree, hA, hA'] at hsub
    rw [descendants, descendants, nodesBelow, nodesBelow, ht, ht']
    exact List.cons_sublist_cons.mp hsub
  · rw [descendants, nodesBelow, wf'.treeAt_eq_nil (mt h.moves.mem_ids_iff.mp hp)]
    exact List.nil_sublist _

/-- The tree at every node is determined by what was taken out. -/
theorem sameTrees (h' : d.TakesOut d'' out) : d'.SameTrees d'' where
  root_eq := h'.moves.grows.root_eq.trans h.moves.grows.root_eq.symm
  fresh_eq := h'.moves.fresh_eq.trans h.moves.fresh_eq.symm
  declaration_eq := h'.moves.declaration_eq.trans h.moves.declaration_eq.symm
  treeAt_eq n := by
    have wf' := h.moves.grows.wellFormed
    have hlabel := fun m => (h'.moves.label?_eq m).trans (h.moves.label?_eq m).symm
    by_cases hn : n ∈ d'.ids
    · exact wf'.treeAt_congr h'.moves.grows.wellFormed hn fun m _ =>
        ⟨hlabel m, (h'.children_eq m).trans (h.children_eq m).symm⟩
    · rw [wf'.treeAt_eq_nil hn, h'.moves.grows.wellFormed.treeAt_eq_nil]
      rwa [h'.moves.mem_ids_iff, ← h.moves.mem_ids_iff]

end TakesOut

end Document

end WordTemplate.Xml
