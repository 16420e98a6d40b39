import WordTemplate.Proofs.Xml.Unchanged

/-!
# Moving nodes

Taking nodes out and putting them in elsewhere makes no node and changes no label: it `Moves` nodes. What
is left to say is which children every node has and which nodes are at the top of a tree, and a document is
determined by that.

* `Moves.eq`: if nodes were moved, but all are where they were, the document is the same.
* `WellFormed.children_detachAll`, `WellFormed.insertAllAfter_moves`: what moving several nodes does to the
  children of every node.
* `WellFormed.putAfter_between`: what is taken out from behind a node can be put back there.
-/

namespace WordTemplate.Xml

open Forest

/-! ## Lists of siblings -/

/-- The list with `ns` directly after `a`. -/
def putAfter (a : NodeId) (ns l : List NodeId) : List NodeId :=
  l.flatMap fun i => if i = a then a :: ns else [i]

section PutAfter

variable {a b : NodeId} {ns ms l : List NodeId}

theorem putAfter_cons (i : NodeId) :
    putAfter a ns (i :: l) = (if i = a then a :: ns else [i]) ++ putAfter a ns l := rfl

theorem putAfter_append (l' : List NodeId) :
    putAfter a ns (l ++ l') = putAfter a ns l ++ putAfter a ns l' :=
  List.flatMap_append

theorem putAfter_of_not_mem (h : a ∉ l) : putAfter a ns l = l :=
  flatMap_eq_self h

theorem putAfter_nil (a : NodeId) (l : List NodeId) : putAfter a [] l = l := by
  induction l with
  | nil => rfl
  | cons i l ih =>
    rw [putAfter_cons, ih]
    split
    · next h => rw [h]; rfl
    · rfl

theorem mem_putAfter {m : NodeId} : m ∈ putAfter a ns l ↔ m ∈ l ∨ (a ∈ l ∧ m ∈ ns) := by
  rw [putAfter, mem_flatMap_iff, List.mem_cons]
  by_cases hm : m = a
  · subst hm
    tauto
  · simp [hm]

/-- Putting nodes after two different ones, neither of which is among the nodes that are put in. -/
theorem putAfter_comm (hne : a ≠ b) (ha : a ∉ ms) (hb : b ∉ ns) :
    putAfter a ns (putAfter b ms l) = putAfter b ms (putAfter a ns l) := by
  induction l with
  | nil => rfl
  | cons i l ih =>
    rw [putAfter_cons, putAfter_cons, putAfter_append, putAfter_append, ih]
    congr 1
    by_cases hib : i = b
    · subst hib
      rw [if_pos rfl, if_neg (Ne.symm hne), putAfter_cons, putAfter_cons, if_pos rfl,
        if_neg (Ne.symm hne), putAfter_of_not_mem ha]
      simp [putAfter]
    · by_cases hia : i = a
      · subst hia
        rw [if_neg hne, if_pos rfl, putAfter_cons, putAfter_cons, if_pos rfl, if_neg hne,
          putAfter_of_not_mem hb]
        simp [putAfter]
      · rw [if_neg hib, if_neg hia, putAfter_cons, putAfter_cons, if_neg hib, if_neg hia]
        rfl

/-- Putting several nodes after `a` one behind the other. -/
theorem putAfter_putAfter (hb : b ∉ l) (hne : a ≠ b) :
    putAfter b ns (putAfter a [b] l) = putAfter a (b :: ns) l := by
  induction l with
  | nil => rfl
  | cons i l ih =>
    rw [List.mem_cons, not_or] at hb
    rw [putAfter_cons, putAfter_cons, putAfter_append, ih hb.2]
    congr 1
    by_cases hia : i = a
    · subst hia
      rw [if_pos rfl, if_pos rfl, putAfter_cons, if_neg hne, putAfter_cons, if_pos rfl]
      simp [putAfter]
    · rw [if_neg hia, if_neg hia, putAfter_cons, if_neg (Ne.symm hb.1)]
      rfl

/-- What is taken out of a list from behind `a` can be put back. -/
theorem putAfter_filter (h : (l ++ a :: (ns ++ ms)).Nodup) :
    putAfter a ns ((l ++ a :: (ns ++ ms)).filter (· ∉ ns)) = l ++ a :: (ns ++ ms) := by
  have hl : l.filter (· ∉ ns) = l := List.filter_eq_self.mpr fun i hi => by
    simp only [List.nodup_append, List.mem_cons, List.mem_append] at h
    simpa using fun hn => h.2.2 i hi i (.inr (.inl hn)) rfl
  have hm : ms.filter (· ∉ ns) = ms := List.filter_eq_self.mpr fun i hi => by
    simp only [List.nodup_append, List.nodup_cons] at h
    simpa using fun hn => h.2.1.2.2.2 i hn i hi rfl
  have hns : ns.filter (· ∉ ns) = [] := List.filter_eq_nil_iff.mpr fun i hi => by simpa using hi
  rw [← List.cons_append, ← List.append_assoc, List.nodup_append] at h
  simp only [List.nodup_append, List.nodup_cons, List.mem_append, List.mem_cons] at h
  have ha : a ∉ ns := h.1.2.1.1
  rw [List.filter_append, hl, List.filter_cons_of_pos (by simpa using ha), List.filter_append, hns, hm,
    List.nil_append, putAfter_append, putAfter_cons, if_pos rfl,
    putAfter_of_not_mem fun hal => h.1.2.2 a hal a (.inl rfl) rfl,
    putAfter_of_not_mem fun hms => h.2.2 a (.inr (.inl rfl)) a hms rfl]
  rfl

end PutAfter

namespace Document

variable {d d₁ d₂ d' : Document} {n m p t a : NodeId} {ns : List NodeId}

/-! ## Documents with the same nodes -/

/-- The nodes at the top of the trees. -/
def tops (d : Document) : List NodeId :=
  d.trees.roots.map Node.id

theorem WellFormed.parent?_of_mem_tops (wf : d.WellFormed) (h : n ∈ d.tops) : d.parent? n = none := by
  obtain ⟨node, hnode, rfl⟩ := List.mem_map.mp h
  obtain ⟨l, cs, r, htrees⟩ := exists_of_mem_roots hnode
  exact parent?_eq wf (eq_wrap_nil htrees)

/-- Whether `d'` has the nodes of `d`, with the labels that they have there. -/
structure Moves (d d' : Document) : Prop where
  grows : d.Grows d'
  fresh_eq : d'.fresh = d.fresh
  declaration_eq : d'.declaration = d.declaration
  label?_eq : ∀ n, d'.label? n = d.label? n

namespace Moves

theorem refl (wf : d.WellFormed) : d.Moves d :=
  ⟨.refl wf, rfl, rfl, fun _ => rfl⟩

theorem trans (h₁ : d.Moves d₁) (h₂ : d₁.Moves d₂) : d.Moves d₂ where
  grows := h₁.grows.trans h₂.grows
  fresh_eq := h₂.fresh_eq.trans h₁.fresh_eq
  declaration_eq := h₂.declaration_eq.trans h₁.declaration_eq
  label?_eq n := (h₂.label?_eq n).trans (h₁.label?_eq n)

/-- If all nodes are where they were, the document is the same. -/
theorem eq (h : d.Moves d') (wf : d.WellFormed) (hchildren : ∀ n, d'.children n = d.children n)
    (htops : d'.tops = d.tops) : d' = d := by
  have wf' := h.grows.wellFormed
  have htrees : d'.trees = d.trees := by
    calc d'.trees
        = d'.treesAt d'.tops := (wf'.treesAt_roots wf'
            (fun l a as r hl => treeAt_eq wf' (eq_wrap_nil hl)) fun _ _ => ⟨rfl, rfl⟩).symm
      _ = d'.treesAt d.tops := by rw [htops]
      _ = d.trees := wf.treesAt_roots wf' (fun l a as r hl => treeAt_eq wf (eq_wrap_nil hl))
            fun m _ => ⟨h.label?_eq m, hchildren m⟩
  have hroot := h.grows.root_eq
  have hfresh := h.fresh_eq
  have hdeclaration := h.declaration_eq
  have hknots := wf'.knots_eq.trans wf.knots_eq.symm
  cases d
  cases d'
  simp_all

/-- A node that has no label in a document is not there. -/
theorem label?_eq_of_grows (wf : d.WellFormed) (h : d.Grows d') (hfresh : d'.fresh = d.fresh)
    (hlabel : ∀ n ∈ d.ids, d'.label? n = d.label? n) (n : NodeId) : d'.label? n = d.label? n := by
  by_cases hn : n ∈ d.ids
  · exact hlabel n hn
  · have hn' : n ∉ d'.ids := fun hmem => by
      have := h.wellFormed.lt_fresh n hmem
      have := (h.mem_or_fresh n hmem).resolve_left hn
      omega
    rw [label?, label?, wf.treeAt_eq_nil hn, h.wellFormed.treeAt_eq_nil hn']

end Moves

/-! ## Taking nodes out -/

theorem WellFormed.moves_detach (wf : d.WellFormed) (n : NodeId) : d.Moves (d.detach n) where
  grows := wf.grows_detach n
  fresh_eq := wf.fresh_detach n
  declaration_eq := by
    rw [wf.detach]
    split <;> rfl
  label?_eq := label?_detach wf n

theorem WellFormed.moves_detachAll (wf : d.WellFormed) (ns : List NodeId) :
    d.Moves (d.detachAll ns) := by
  induction ns generalizing d with
  | nil => exact .refl wf
  | cons n ns ih => exact (wf.moves_detach n).trans (ih (wf.grows_detach n).wellFormed)

theorem WellFormed.children_detachAll (wf : d.WellFormed) (ns : List NodeId) (m : NodeId) :
    (d.detachAll ns).children m = (d.children m).filter (· ∉ ns) := by
  induction ns generalizing d with
  | nil => simp [detachAll]
  | cons n ns ih =>
    show ((d.detach n).detachAll ns).children m = _
    rw [ih (wf.grows_detach n).wellFormed, wf.children_detach, List.filter_filter]
    refine List.filter_congr fun i _ => ?_
    rw [Bool.eq_iff_iff]
    simp
    tauto

/-- Without one of the nodes the list of those at the top is as long or shorter. -/
theorem map_roots_prune {f : Forest Node} (hnd : (Xml.ids f).Nodup) (n : NodeId) :
    (f.prune (·.id == n)).roots.map Node.id = (f.roots.map Node.id).filter (· ≠ n) := by
  by_cases hn : n ∈ Xml.ids f
  · obtain ⟨node, cs, rfl, ht⟩ := Xml.exists_treeAt hn
    rw [prune, map_roots_replace _ hnd ht]
    induction f.roots.map Node.id with
    | nil => rfl
    | cons i l ih =>
      rw [List.flatMap_cons, ih]
      by_cases hi : i = node.id <;> simp [hi, roots]
  · rw [prune_eq_self_of_not_mem hn, List.filter_eq_self.mpr]
    exact fun i hi => by simpa using fun he : i = n => hn (he ▸ (roots_ids_sublist f).subset hi)

/-- What is taken out is at the top from then on. -/
theorem WellFormed.exists_tops_detach (wf : d.WellFormed) (n : NodeId) :
    ∃ l, (d.detach n).tops = l ++ d.tops ∧ ∀ i ∈ l, i = n := by
  by_cases hp : (d.parent? n).isSome
  · obtain ⟨node, cs, rfl, ht⟩ := wf.exists_treeAt (wf.mem_ids_of_parent? hp)
    refine ⟨[node.id], ?_, by simp⟩
    rw [wf.detach, if_pos hp, tops, remake_trees, roots_append, List.map_append, ht,
      map_roots_prune wf.ids_nodup, List.filter_eq_self.mpr fun i hi => ?_]
    · rfl
    · rw [decide_eq_true_eq]
      rintro rfl
      rw [wf.parent?_of_mem_tops hi] at hp
      cases hp
  · exact ⟨[], by rw [wf.detach, if_neg hp]; rfl, by simp⟩

theorem WellFormed.exists_tops_detachAll (wf : d.WellFormed) (ns : List NodeId) :
    ∃ l, (d.detachAll ns).tops = l ++ d.tops ∧ ∀ i ∈ l, i ∈ ns := by
  induction ns generalizing d with
  | nil => exact ⟨[], rfl, by simp⟩
  | cons n ns ih =>
    obtain ⟨l, hl, hmem⟩ := wf.exists_tops_detach n
    obtain ⟨l', hl', hmem'⟩ := ih (wf.grows_detach n).wellFormed
    refine ⟨l' ++ l, by rw [List.append_assoc, ← hl]; exact hl', fun i hi => ?_⟩
    rcases List.mem_append.mp hi with hi | hi
    · exact List.mem_cons_of_mem _ (hmem' i hi)
    · exact hmem i hi ▸ List.mem_cons_self ..

/-! ## Putting nodes in -/

theorem WellFormed.moves_insertBeside {put : Forest Node → Forest Node → Forest Node} (wf : d.WellFormed)
    (hr : d.Receives n t) (hp : (d.parent? t).isSome) (hput : ∀ f g, put f g = f ++ g ∨ put f g = g ++ f) :
    d.Moves (d.insertBeside put t n) := by
  have hgrows := wf.grows_beside hr hput
  have hfresh : (d.insertBeside put t n).fresh = d.fresh := by rw [wf.insertBeside_eq hr hp, remake_fresh]
  exact ⟨hgrows, hfresh, by rw [wf.insertBeside_eq hr hp]; rfl,
    Moves.label?_eq_of_grows wf hgrows hfresh fun m hm => wf.label?_insertBeside hr hp hput hm⟩

theorem WellFormed.moves_insertAfter (wf : d.WellFormed) (hr : d.Receives n t)
    (hp : (d.parent? t).isSome) : d.Moves (d.insertAfter t n) :=
  wf.moves_insertBeside hr hp fun _ _ => .inr rfl

theorem WellFormed.tops_insertAfter (wf : d.WellFormed) (hr : d.Receives n t)
    (hp : (d.parent? t).isSome) : (d.insertAfter t n).tops = d.tops.filter (· ≠ n) := by
  rw [insertAfter, wf.insertBeside_eq hr hp, tops, tops, remake_trees,
    ← map_roots_prune wf.ids_nodup n]
  have hnd := hr.nodup_prune wf
  have ht : t ∉ (d.trees.prune (·.id == n)).roots.map Node.id := by
    rw [map_roots_prune wf.ids_nodup]
    intro hmem
    rw [wf.parent?_of_mem_tops (List.mem_filter.mp hmem).1] at hp
    cases hp
  by_cases hmem : t ∈ Xml.ids (d.trees.prune (·.id == n))
  · obtain ⟨node, cs, rfl, htree⟩ := Xml.exists_treeAt hmem
    rw [map_roots_replace _ hnd htree, flatMap_eq_self ht]
  · rw [replace_eq_self_of_not_mem hmem]

/-- Putting nodes that have no parents after `a`, one behind the other. -/
theorem WellFormed.insertAllAfter_moves (wf : d.WellFormed) (ha : (d.parent? a).isSome)
    (hnd : ns.Nodup) (h : ∀ n ∈ ns, d.Receives n a) :
    d.Moves (d.insertAllAfter a ns).2 ∧
      (∀ m, (d.insertAllAfter a ns).2.children m = putAfter a ns (d.children m)) ∧
      (d.insertAllAfter a ns).2.tops = d.tops.filter (· ∉ ns) := by
  induction ns generalizing d a with
  | nil => exact ⟨.refl wf, fun m => (putAfter_nil a _).symm, by simp [insertAllAfter]⟩
  | cons n ns ih =>
    rw [List.nodup_cons] at hnd
    have hn := h n (List.mem_cons_self ..)
    have hmoves := wf.moves_insertAfter hn ha
    have wf₁ := hmoves.grows.wellFormed
    have hchildren : ∀ m, (d.insertAfter a n).children m = putAfter a [n] (d.children m) :=
      wf.children_insertAfter hn ha
    have hnot : ∀ m, n ∉ d.children m := fun m hmem => by
      have := hn.parent?_eq
      rw [wf.parent?_eq_some_iff.mpr hmem] at this
      cases this
    have hne : a ≠ n := by
      rintro rfl
      exact hn.target_not_mem (wf.mem_treeAt_self hn.mem_ids)
    -- The first node has a parent now, and the trees of the others are as they were.
    have hp : ((d.insertAfter a n).parent? n).isSome := by
      obtain ⟨p, hp⟩ := Option.isSome_iff_exists.mp ha
      have hmem : n ∈ (d.insertAfter a n).children p := by
        rw [hchildren, mem_putAfter]
        exact .inr ⟨wf.parent?_eq_some_iff.mp hp, by simp⟩
      rw [wf₁.parent?_eq_some_iff.mpr hmem]
      rfl
    have hrest : ∀ k ∈ ns, (d.insertAfter a n).Receives k n := by
      intro k hk
      have hkr := h k (List.mem_cons_of_mem n hk)
      have hkn : k ≠ n := fun he => hnd.1 (he ▸ hk)
      refine ⟨hmoves.grows.mem_ids k hkr.mem_ids, ?_, hmoves.grows.mem_ids n hn.mem_ids, ?_⟩
      · refine Option.eq_none_iff_forall_ne_some.mpr fun p hp => ?_
        rw [wf₁.parent?_eq_some_iff, hchildren, mem_putAfter, List.mem_singleton] at hp
        rcases hp with hp | ⟨-, rfl⟩
        · rw [← wf.parent?_eq_some_iff, hkr.parent?_eq] at hp
          cases hp
        · exact hkn rfl
      · rw [wf.treeAt_insertAfter hn ha, replace_eq_self_of_not_mem hkr.target_not_mem, ite_self]
        exact (parent?_eq_none_iff wf).mp hn.parent?_eq k hkn
    obtain ⟨hmoves', hchildren', htops'⟩ := ih wf₁ hp hnd.2 hrest
    refine ⟨hmoves.trans hmoves', fun m => ?_, ?_⟩
    · exact (hchildren' m).trans (by rw [hchildren, putAfter_putAfter (hnot m) hne])
    · refine htops'.trans ?_
      rw [wf.tops_insertAfter hn ha, List.filter_filter]
      refine List.filter_congr fun i _ => ?_
      rw [Bool.eq_iff_iff]
      simp
      tauto

/-! ## Putting nodes back -/

/-- What is between two nodes stands directly behind the first of them. -/
theorem exists_of_between {first last : NodeId}
    (h : d.between first last ≠ []) :
    ∃ p l r, d.children p = l ++ first :: (d.between first last ++ r) := by
  cases hi : d.index? first with
  | none => simp [between, hi] at h
  | some i =>
    cases hj : d.index? last with
    | none => simp [between, hi, hj] at h
    | some j =>
      have hbetween : d.between first last = ((d.siblings first).take j).drop (i + 1) := by
        simp only [between, hi, hj] at h ⊢
        split
        · rfl
        · next hne => simp [hne] at h
      rw [index?, List.idxOf?_eq_some_iff] at hi
      obtain ⟨hlt, hget, -⟩ := hi
      have hsiblings : ∃ p, d.siblings first = d.children p := by
        rw [siblings] at hlt ⊢
        cases hp : d.parent? first with
        | none => simp [hp] at hlt
        | some p => exact ⟨p, rfl⟩
      obtain ⟨p, hp⟩ := hsiblings
      simp only [hp] at hlt hget hbetween
      refine ⟨p, (d.children p).take i, ((d.children p).drop (i + 1)).drop (j - (i + 1)), ?_⟩
      rw [hbetween, List.drop_take, List.take_append_drop]
      have hcons := List.drop_eq_getElem_cons hlt
      rw [hget] at hcons
      rw [← hcons, List.take_append_drop]

/-- What is taken out from behind a node can be put back. -/
theorem WellFormed.putAfter_between (wf : d.WellFormed) (first last m : NodeId) :
    putAfter first (d.between first last) ((d.detachAll (d.between first last)).children m) =
      d.children m := by
  rw [wf.children_detachAll]
  by_cases h : d.between first last = []
  · rw [h, putAfter_nil]
    simp
  · obtain ⟨p, l, r, hp⟩ := exists_of_between h
    by_cases hm : m = p
    · subst hm
      rw [hp]
      exact putAfter_filter (hp ▸ wf.nodup_children m)
    · -- No other node has one of these for a child.
      have hother : ∀ i ∈ d.children p, i ∉ d.children m := fun i hi hi' => by
        rw [← wf.parent?_eq_some_iff] at hi hi'
        exact hm (Option.some.inj (hi'.symm.trans hi))
      rw [List.filter_eq_self.mpr fun i hi => ?_, putAfter_of_not_mem (hother first (by simp [hp]))]
      simpa using fun hi' => hother i (by simp [hp, hi']) hi

end Document

end WordTemplate.Xml
