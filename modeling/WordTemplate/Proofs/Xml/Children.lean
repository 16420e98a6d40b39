import WordTemplate.Proofs.Xml.Family
import WordTemplate.Proofs.Xml.Gains

/-!
# Labels and children

A document can be seen as a label and a list of children for every node. Each change of a document is
one of few lists: a child is left out, put in beside another one, or put in at the end. The trees at
all nodes are determined by this, and so are the parents.

* `WellFormed.children_detach` and the like: what a change does to the children of every node.
* `WellFormed.treeAt_congr`: trees with the same labels and children are the same.
* `WellFormed.parent?_congr`: a node has the same parent if the same nodes have it for a child.
-/

namespace WordTemplate.Xml

open Forest

/-- Putting a list in the place of a value that is not there. -/
theorem flatMap_eq_self {n : NodeId} {l x : List NodeId} (h : n ∉ l) :
    (l.flatMap fun i => if i = n then x else [i]) = l := by
  induction l with
  | nil => rfl
  | cons i l ih =>
    rw [List.mem_cons, not_or] at h
    rw [List.flatMap_cons, if_neg (Ne.symm h.1), ih h.2]
    rfl

theorem mem_flatMap_iff {n m : NodeId} {l x : List NodeId} :
    (m ∈ l.flatMap fun i => if i = n then x else [i]) ↔ (m ∈ l ∧ m ≠ n) ∨ (n ∈ l ∧ m ∈ x) := by
  rw [List.mem_flatMap]
  constructor
  · rintro ⟨i, hi, hm⟩
    split at hm
    · next h => exact .inr ⟨h ▸ hi, hm⟩
    · next h =>
      obtain rfl := List.mem_singleton.mp hm
      exact .inl ⟨hi, h⟩
  · rintro (⟨hm, hne⟩ | ⟨hn, hm⟩)
    · exact ⟨m, hm, by simp [hne]⟩
    · exact ⟨n, hn, by simpa using hm⟩

/-- The nodes at the top of a forest after one of its nodes was replaced. -/
theorem map_roots_replace {f cs : Forest Node} {node : Node} {n : NodeId}
    (put : Node → Forest Node → Forest Node) (hnd : (ids f).Nodup)
    (ht : f.treeAt (·.id == n) = tree node cs) :
    (f.replace (·.id == n) put).roots.map Node.id =
      (f.roots.map Node.id).flatMap fun i =>
        if i = n then (put node cs).roots.map Node.id else [i] := by
  induction f with
  | nil => rfl
  | cons a as rest ihc ihr =>
    rw [ids_cons, List.nodup_cons, List.mem_append, not_or, List.nodup_append] at hnd
    obtain ⟨⟨hac, har⟩, hndc, hndr, hdis⟩ := hnd
    have hrest : n ∉ ids rest → n ∉ rest.roots.map Node.id := fun h hn =>
      h ((roots_ids_sublist rest).mem hn)
    rw [treeAt_cons] at ht
    rw [replace_cons, roots, List.map_cons, List.flatMap_cons]
    by_cases ha : a.id = n
    · obtain ⟨rfl, rfl⟩ : a = node ∧ as = cs := by simpa [ha, tree] using ht
      rw [if_pos (by simpa using ha), if_pos ha, flatMap_eq_self (hrest (ha ▸ har)), roots_append,
        List.map_append]
    · simp only [beq_iff_eq, ha, if_false] at ht ⊢
      by_cases hc : n ∈ ids as
      · have hr : n ∉ ids rest := fun h => hdis n hc n h rfl
        rw [if_pos (any_id_iff.mpr hc), flatMap_eq_self (hrest hr)]
        rfl
      · have hcb := any_id_eq_false_iff.mpr hc
        simp only [hcb, Bool.false_eq_true, if_false] at ht ⊢
        rw [roots, List.map_cons, ihr hndr ht]
        rfl

namespace Document

variable {d d' : Document} {n m p t : NodeId} {node : Node} {cs : Forest Node}

/-! ## Children and trees -/

theorem children_of_tree (h : d.treeAt n = tree node cs) :
    d.children n = cs.roots.map Node.id := by
  rw [children, h]
  rfl

theorem WellFormed.children_eq_nil (wf : d.WellFormed) (h : n ∉ d.ids) : d.children n = [] := by
  rw [children, wf.treeAt_eq_nil h]
  rfl

theorem WellFormed.parent?_eq_some_iff (wf : d.WellFormed) :
    d.parent? n = some p ↔ n ∈ d.children p := by
  constructor
  · intro h
    obtain ⟨A, l, a, as, r, hp, -, rfl⟩ := wf.exists_of_parent? h
    rw [children_of_tree hp]
    simp [roots]
  · intro h
    have hp : p ∈ d.ids := by
      by_contra hp
      rw [wf.children_eq_nil hp] at h
      cases h
    obtain ⟨A, X, -, hp⟩ := wf.exists_treeAt hp
    rw [children_of_tree hp] at h
    exact wf.parent?_of_mem_roots hp h

/-- A node has the same parent if the nodes that have it for a child are the same. -/
theorem WellFormed.parent?_congr (wf : d.WellFormed) (wf' : d'.WellFormed)
    (h : ∀ p, m ∈ d'.children p ↔ m ∈ d.children p) : d'.parent? m = d.parent? m := by
  refine Option.ext fun p => ?_
  rw [wf.parent?_eq_some_iff, wf'.parent?_eq_some_iff]
  exact h p

/-- A node with a child is in the document. -/
theorem WellFormed.mem_ids_of_children (wf : d.WellFormed) (h : n ∈ d.children p) : p ∈ d.ids := by
  by_contra hp
  rw [wf.children_eq_nil hp] at h
  cases h

theorem WellFormed.mem_ids_of_mem_children (wf : d.WellFormed) (h : n ∈ d.children p) : n ∈ d.ids :=
  wf.mem_ids_of_parent? (by rw [wf.parent?_eq_some_iff.mpr h]; rfl)

theorem WellFormed.mem_treeAt_of_mem_children (wf : d.WellFormed) (h : n ∈ d.children p) :
    n ∈ Xml.ids (d.treeAt p) := by
  obtain ⟨A, l, a, as, r, hp, -, rfl⟩ := wf.exists_of_parent? (wf.parent?_eq_some_iff.mpr h)
  rw [hp]
  simp

theorem WellFormed.exists_of_mem_siblings (wf : d.WellFormed) (h : m ∈ d.siblings n) :
    ∃ p, n ∈ d.children p ∧ m ∈ d.children p := by
  rw [siblings] at h
  cases hp : d.parent? n with
  | none => simp [hp] at h
  | some p => exact ⟨p, wf.parent?_eq_some_iff.mp hp, by simpa [hp] using h⟩

theorem WellFormed.nodup_children (wf : d.WellFormed) (n : NodeId) : (d.children n).Nodup := by
  by_cases hn : n ∈ d.ids
  · obtain ⟨A, X, -, ht⟩ := wf.exists_treeAt hn
    have hnd := wf.nodup_treeAt n
    rw [ht, ids_tree, List.nodup_cons] at hnd
    rw [children_of_tree ht]
    exact (roots_ids_sublist X).nodup hnd.2
  · rw [wf.children_eq_nil hn]
    exact List.nodup_nil

theorem WellFormed.label?_of_tree (wf : d.WellFormed) (h : d.treeAt n = tree node cs) :
    d.label? n = some node.label ∧ node.id = n :=
  ⟨by rw [label?, h]; rfl, (wf.mem_ids_of_treeAt h).2⟩

theorem treesAt_cons (n : NodeId) (ns : List NodeId) :
    d.treesAt (n :: ns) = d.treeAt n ++ d.treesAt ns := rfl

/-- Trees of which every node has the same label and the same children. -/
theorem WellFormed.treesAt_roots (wf : d.WellFormed) (wf' : d'.WellFormed) {f : Forest Node}
    (hf : ∀ l a as r, f = l ++ cons a as r → d.treeAt a.id = tree a as)
    (h : ∀ m ∈ Xml.ids f, d'.label? m = d.label? m ∧ d'.children m = d.children m) :
    d'.treesAt (f.roots.map Node.id) = f := by
  induction f with
  | nil => rfl
  | cons a as rest ihc ihr =>
    have ha := hf nil a as rest rfl
    obtain ⟨hlabel, hchildren⟩ := h a.id (by simp)
    rw [(wf.label?_of_tree ha).1] at hlabel
    obtain ⟨node, cs, hid, ht⟩ := wf'.exists_treeAt (wf'.mem_ids_of_label? hlabel)
    obtain rfl : node = a := by
      have hl := Option.some.inj ((wf'.label?_of_tree ht).1.symm.trans hlabel)
      obtain ⟨i, l⟩ := node
      exact congr (congrArg Node.mk hid) hl
    -- The children are trees with this property as well.
    have hcs : d'.treesAt (cs.roots.map Node.id) = as := by
      rw [← children_of_tree ht, hchildren, children_of_tree ha]
      refine ihc (fun l b bs r hl => ?_) fun m hm => h m (by simp [hm])
      rw [hl] at ha
      exact wf.treeAt_child ha
    have hself : ∀ l r : Forest Node, cs = l ++ r → d'.treesAt (r.roots.map Node.id) = r := by
      intro l r
      induction r generalizing l with
      | nil => exact fun _ => rfl
      | cons b bs r _ ih =>
        intro hcs
        rw [hcs] at ht
        rw [roots, List.map_cons, treesAt_cons, wf'.treeAt_child ht,
          ih (l ++ tree b bs) (by rw [hcs, append_assoc]; rfl)]
        rfl
    rw [roots, List.map_cons, treesAt_cons, ht, ← hself nil cs rfl, hcs,
      ihr (fun l b bs r hl => hf (cons node as l) b bs r (by rw [hl]; rfl)) fun m hm =>
        h m (by simp [hm])]
    rfl

/-- The tree at a node is determined by the labels and the children in it. -/
theorem WellFormed.treeAt_congr (wf : d.WellFormed) (wf' : d'.WellFormed) (hn : n ∈ d.ids)
    (h : ∀ m ∈ Xml.ids (d.treeAt n), d'.label? m = d.label? m ∧ d'.children m = d.children m) :
    d'.treeAt n = d.treeAt n := by
  obtain ⟨node, cs, rfl, ht⟩ := wf.exists_treeAt hn
  have key := wf.treesAt_roots wf' (f := tree node cs) (fun l a as r hl => ?_) (by rwa [ht] at h)
  · rw [ht]
    exact (append_nil _).symm.trans key
  · cases l with
    | nil =>
      obtain ⟨rfl, rfl, -⟩ := Forest.cons.inj hl
      exact ht
    | cons b bs l =>
      have := (Forest.cons.inj hl).2.2
      cases l <;> cases this

/-! ## Changes -/

/-- The children of a node when some node in its tree was replaced. -/
theorem WellFormed.children_of_replace (wf : d.WellFormed) {put : Node → Forest Node → Forest Node}
    (h : d'.treeAt m = (d.treeAt m).replace (·.id == n) put) (hne : m ≠ n)
    (ht : d.treeAt n = tree node cs) :
    d'.children m = (d.children m).flatMap fun i =>
      if i = n then (put node cs).roots.map Node.id else [i] := by
  by_cases hm : m ∈ d.ids
  · obtain ⟨a, as, rfl, hat⟩ := wf.exists_treeAt hm
    rw [hat, replace_tree, if_neg (by simpa using hne)] at h
    rw [children_of_tree h, children_of_tree hat]
    have hnd := wf.nodup_treeAt a.id
    rw [hat, ids_tree, List.nodup_cons] at hnd
    by_cases hn : n ∈ Xml.ids as
    · exact map_roots_replace put hnd.2 ((wf.treeAt_children hat hn).trans ht)
    · rw [replace_eq_self_of_not_mem hn,
        flatMap_eq_self fun hn' => hn ((roots_ids_sublist as).mem hn')]
  · rw [wf.treeAt_eq_nil hm] at h
    rw [wf.children_eq_nil hm, children, h]
    rfl

/-- Nothing is replaced if the node is not there. -/
theorem children_of_treeAt (h : d'.treeAt m = d.treeAt m) : d'.children m = d.children m := by
  rw [children, children, h]

theorem WellFormed.not_mem_children_self (wf : d.WellFormed) (n : NodeId) : n ∉ d.children n :=
  fun h => wf.ne_of_parent? (wf.parent?_eq_some_iff.mpr h) rfl

theorem WellFormed.children_detach (wf : d.WellFormed) (n m : NodeId) :
    (d.detach n).children m = (d.children m).filter (· ≠ n) := by
  have hfilter : n ∉ d.children m → d.children m = (d.children m).filter (· ≠ n) := fun h =>
    (List.filter_eq_self.mpr fun i hi => by simpa using fun he : i = n => h (he ▸ hi)).symm
  have hat := wf.treeAt_detach n m
  by_cases hne : m = n
  · subst hne
    rw [if_pos rfl] at hat
    rw [children_of_treeAt hat]
    exact hfilter (wf.not_mem_children_self m)
  · rw [if_neg hne] at hat
    by_cases hn : n ∈ d.ids
    · obtain ⟨node, cs, rfl, ht⟩ := wf.exists_treeAt hn
      rw [wf.children_of_replace hat hne ht]
      induction d.children m with
      | nil => rfl
      | cons i l ih =>
        rw [List.flatMap_cons, ih]
        by_cases hi : i = node.id <;> simp [hi, roots]
    · have hnot := fun h => hn (wf.mem_ids_of_mem_children (p := m) h)
      rw [prune_eq_self_of_not_mem fun h => hn (wf.mem_ids_of_mem_treeAt h)] at hat
      rw [children_of_treeAt hat]
      exact hfilter hnot

/-- A node that is taken out has no parent, and no other node gets one. -/
theorem WellFormed.parent?_detach (wf : d.WellFormed) (h : m = n ∨ d.parent? m = none) :
    (d.detach n).parent? m = none := by
  refine Option.eq_none_iff_forall_ne_some.mpr fun p hp => ?_
  rw [(wf.grows_detach n).wellFormed.parent?_eq_some_iff, wf.children_detach, List.mem_filter] at hp
  obtain ⟨hmem, hne⟩ := hp
  rcases h with rfl | h
  · simp at hne
  · rw [wf.parent?_eq_some_iff.mpr hmem] at h
    cases h

theorem WellFormed.parent?_detach_of_ne (wf : d.WellFormed) (hne : m ≠ n) :
    (d.detach n).parent? m = d.parent? m :=
  wf.parent?_congr (wf.grows_detach n).wellFormed fun p => by
    rw [wf.children_detach, List.mem_filter]
    simp [hne]

/-- The children of a node when another one got other children or another label. -/
theorem WellFormed.children_of_replace_below (wf : d.WellFormed)
    {g : Node → Forest Node → Forest Node} (hput : ∀ a as, ∃ as' b, g a as = tree b as' ∧ b.id = a.id)
    (h : d'.treeAt m = (d.treeAt m).replace (·.id == n) g) (hne : m ≠ n) :
    d'.children m = d.children m := by
  by_cases hn : n ∈ d.ids
  · obtain ⟨node, cs, rfl, ht⟩ := wf.exists_treeAt hn
    rw [wf.children_of_replace h hne ht]
    obtain ⟨as', b, hb, hid⟩ := hput node cs
    rw [hb, roots_tree, List.map_singleton, hid]
    induction d.children m with
    | nil => rfl
    | cons i l ih =>
      rw [List.flatMap_cons, ih]
      by_cases hi : i = node.id <;> simp [hi]
  · rw [replace_eq_self_of_not_mem fun h => hn (wf.mem_ids_of_mem_treeAt h)] at h
    exact children_of_treeAt h

@[simp] theorem WellFormed.children_relabel (wf : d.WellFormed) (n m : NodeId)
    (change : Label → Label) : (d.relabel n change).children m = d.children m := by
  have hat := wf.treeAt_relabel n m change
  by_cases hne : m = n
  · subst hne
    by_cases hm : m ∈ d.ids
    · obtain ⟨a, as, rfl, ht⟩ := wf.exists_treeAt hm
      rw [ht, replace_tree, if_pos (by simp)] at hat
      rw [children_of_tree hat, children_of_tree ht]
    · rw [wf.treeAt_eq_nil hm] at hat
      rw [wf.children_eq_nil hm, children, hat]
      rfl
  · exact wf.children_of_replace_below
      (g := fun node cs => tree { node with label := change node.label } cs)
      (fun a as => ⟨as, _, rfl, rfl⟩) hat hne

theorem WellFormed.children_takeChildren (wf : d.WellFormed) (n m : NodeId) :
    (d.takeChildren n).2.children m = if m = n then [] else d.children m := by
  have hat := wf.treeAt_takeChildren n m
  split
  · next hne =>
    subst hne
    by_cases hm : m ∈ d.ids
    · obtain ⟨a, as, rfl, ht⟩ := wf.exists_treeAt hm
      have hnd := wf.nodup_treeAt a.id
      rw [ht, ids_tree, List.nodup_cons] at hnd
      rw [ht, if_neg (show a.id ∉ Xml.ids (tree a as).firstChildren from hnd.1), replace_tree,
        if_pos (by simp)] at hat
      rw [children_of_tree hat]
      rfl
    · refine WellFormed.children_eq_nil (wf.grows_takeChildren m).wellFormed fun h => ?_
      rcases (wf.grows_takeChildren m).mem_or_fresh m h with h' | h'
      · exact hm h'
      · have := (wf.grows_takeChildren m).wellFormed.lt_fresh m h
        rw [wf.fresh_takeChildren] at this
        omega
  · next hne =>
    split at hat
    · exact children_of_treeAt hat
    · exact wf.children_of_replace_below (fun a as => ⟨nil, a, rfl, rfl⟩) hat hne

theorem WellFormed.children_addCopies (wf : d.WellFormed) (copies : Forest Label) (hm : m ∈ d.ids) :
    (d.addCopies copies).children m = d.children m :=
  children_of_treeAt (wf.treeAt_addCopies_of_mem copies hm)

theorem WellFormed.children_append (wf : d.WellFormed) (hr : d.Receives n t) (m : NodeId) :
    (d.append t n).children m = if m = t then d.children t ++ [n] else d.children m := by
  have hat := wf.treeAt_append hr m
  obtain ⟨b, bs, rfl, htree⟩ := wf.exists_treeAt hr.mem_ids
  split
  · next hne =>
    subst hne
    obtain ⟨a, as, rfl, ht⟩ := wf.exists_treeAt hr.target_mem_ids
    rw [if_neg hr.target_not_mem, ht, replace_tree, if_pos (by simp), htree] at hat
    rw [children_of_tree hat, children_of_tree ht]
    simp
  · next hne =>
    split at hat
    · exact children_of_treeAt hat
    · exact wf.children_of_replace_below (fun a as => ⟨_, a, rfl, rfl⟩) hat hne

/-- The children of a node when a tree was put beside one of them. -/
theorem WellFormed.children_insertBeside (wf : d.WellFormed) (hr : d.Receives n t)
    (hp : (d.parent? t).isSome) {j : Forest Node → Forest Node → Forest Node}
    (hput : ∀ f g, j f g = f ++ g ∨ j f g = g ++ f) (m : NodeId) :
    (d.insertBeside j t n).children m = (d.children m).flatMap fun i =>
      if i = t then (j (d.treeAt n) (d.treeAt t)).roots.map Node.id else [i] := by
  have hat := wf.treeAt_insertBeside hr hp hput m
  obtain ⟨a, as, rfl, ht⟩ := wf.exists_treeAt hr.target_mem_ids
  split at hat
  · next h =>
    rw [children_of_treeAt hat, flatMap_eq_self]
    intro hmem
    rcases h with h | rfl
    · refine hr.target_not_mem ?_
      have := wf.mem_treeAt_of_mem_children hmem
      rw [← wf.treeAt_treeAt h] at this
      exact Xml.mem_ids_of_mem_treeAt this
    · exact wf.not_mem_children_self _ hmem
  · next h =>
    rw [not_or] at h
    rw [wf.children_of_replace hat h.2 ht, ht]

theorem WellFormed.children_insertAfter (wf : d.WellFormed) (hr : d.Receives n t)
    (hp : (d.parent? t).isSome) (m : NodeId) :
    (d.insertAfter t n).children m = (d.children m).flatMap fun i => if i = t then [t, n] else [i] := by
  obtain ⟨a, as, rfl, ha⟩ := wf.exists_treeAt hr.target_mem_ids
  obtain ⟨b, bs, rfl, hb⟩ := wf.exists_treeAt hr.mem_ids
  have := wf.children_insertBeside hr hp (fun _ _ => .inr rfl) m (j := fun f g => g ++ f)
  rwa [ha, hb] at this

theorem WellFormed.label?_of_replace_below (wf : d.WellFormed)
    {put : Node → Forest Node → Forest Node} (hput : ∀ a as, ∃ as' : Forest Node, put a as = tree a as')
    (hm : m ∈ d.ids) (h : d'.treeAt m = d.treeAt m ∨ d'.treeAt m = (d.treeAt m).replace (·.id == n) put) :
    d'.label? m = d.label? m := by
  rcases h with h | h
  · rw [label?, label?, h]
  · exact wf.label?_of_replace hm h fun _ => hput

theorem WellFormed.label?_takeChildren (wf : d.WellFormed) (n : NodeId) (hm : m ∈ d.ids) :
    (d.takeChildren n).2.label? m = d.label? m := by
  refine wf.label?_of_replace_below (n := n) (fun a as => ⟨nil, rfl⟩) hm ?_
  rw [wf.treeAt_takeChildren]
  split
  · exact .inl rfl
  · exact .inr rfl

theorem WellFormed.label?_addCopies (wf : d.WellFormed) (copies : Forest Label) (hm : m ∈ d.ids) :
    (d.addCopies copies).label? m = d.label? m := by
  rw [label?, label?, wf.treeAt_addCopies_of_mem copies hm]

theorem WellFormed.label?_append (wf : d.WellFormed) (hr : d.Receives n t) (hm : m ∈ d.ids) :
    (d.append t n).label? m = d.label? m := by
  refine wf.label?_of_replace_below (n := t) (fun a as => ⟨as ++ d.treeAt n, rfl⟩) hm ?_
  rw [wf.treeAt_append hr]
  split
  · exact .inl rfl
  · exact .inr rfl

theorem WellFormed.label?_insertBeside (wf : d.WellFormed) (hr : d.Receives n t)
    (hp : (d.parent? t).isSome) {put : Forest Node → Forest Node → Forest Node}
    (hput : ∀ f g, put f g = f ++ g ∨ put f g = g ++ f) (hm : m ∈ d.ids) :
    (d.insertBeside put t n).label? m = d.label? m := by
  have hat := wf.treeAt_insertBeside hr hp hput m
  split at hat
  · rw [label?, label?, hat]
  · next h =>
    rw [not_or] at h
    exact wf.label?_of_replace hm hat fun he => absurd he h.2

end Document

end WordTemplate.Xml
