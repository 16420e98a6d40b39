import WordTemplate.Proofs.Forest.Spot
import WordTemplate.Xml.Edit

/-!
# Nodes at their spots

In a well-formed document every identifier stands at one spot. Looking up a node and changing the
document there come down to what is at that spot: for `d.trees = wrap up (l ++ cons node cs r)`, the
nodes above `node` are those of `up`, the tree at it is `tree node cs`, and a change puts other
trees between `l` and `r`.

`Document.remake` is a document with other trees. `WellFormed.remake` says when it is well-formed:
if it has the identifiers of before and those given out since.
-/

namespace WordTemplate.Xml

open Forest

/-- The identifiers in a forest, in document order. -/
def ids (f : Forest Node) : List NodeId :=
  f.toList.map Node.id

@[simp] theorem ids_nil : ids nil = [] := rfl

@[simp] theorem ids_cons (node : Node) (cs rest : Forest Node) :
    ids (cons node cs rest) = node.id :: (ids cs ++ ids rest) := by
  simp [ids, toList]

@[simp] theorem ids_append (f g : Forest Node) : ids (f ++ g) = ids f ++ ids g := by
  simp [ids]

@[simp] theorem ids_tree (node : Node) (cs : Forest Node) :
    ids (tree node cs) = node.id :: ids cs := by
  simp [tree]

theorem any_id_iff {f : Forest Node} {n : NodeId} : f.any (·.id == n) = true ↔ n ∈ ids f := by
  simp [any_iff, ids]

theorem any_id_eq_false_iff {f : Forest Node} {n : NodeId} :
    f.any (·.id == n) = false ↔ n ∉ ids f := by
  rw [← any_id_iff, Bool.not_eq_true]

theorem ids_wrap (up : List (Frame Node)) (f : Forest Node) :
    ids (wrap up f) = (opening up).map Node.id ++ (ids f ++ (closing up).map Node.id) := by
  simp [ids, toList_wrap]

theorem ids_identify (first : Nat) (copies : Forest Label) :
    ids (identify first copies) = (List.range' first copies.size).map NodeId.mk := by
  rw [← map_fst_toList_number, identify, ids, toList_map, List.map_map, List.map_map]
  rfl

theorem size_identify (first : Nat) (copies : Forest Label) :
    (identify first copies).size = copies.size := by
  have := congrArg List.length (ids_identify first copies)
  simpa [ids] using this

/-! ## Labels of a forest of nodes -/

@[simp] theorem labels_nil : labels nil = nil := rfl

@[simp] theorem labels_cons (node : Node) (cs rest : Forest Node) :
    labels (cons node cs rest) = cons node.label (labels cs) (labels rest) := rfl

@[simp] theorem labels_tree (node : Node) (cs : Forest Node) :
    labels (tree node cs) = tree node.label (labels cs) := rfl

@[simp] theorem labels_append (f g : Forest Node) : labels (f ++ g) = labels f ++ labels g := by
  induction f with
  | nil => rfl
  | cons node cs rest _ ih => simp [ih]

@[simp] theorem labels_identify (first : Nat) (copies : Forest Label) :
    labels (identify first copies) = copies := by
  have key : ∀ (f : Forest (Nat × Label)) (g : Nat × Label → Node), (∀ p, (g p).label = p.2) →
      labels (f.map g) = f.map Prod.snd := by
    intro f g hg
    induction f with
    | nil => rfl
    | cons a cs rest ihc ihr =>
      simp only [Forest.map, labels_cons, hg, ihc, ihr]
  rw [identify, key _ _ fun _ => rfl, map_snd_number]

/-! ## Identifiers in a forest without duplicates -/

section Spot

variable {f l r cs : Forest Node} {up : List (Frame Node)} {node : Node}

/-- No other node has the identifier of the one at a spot. -/
theorem id_ne_of_spot (hnd : (ids f).Nodup) (hf : f = wrap up (l ++ cons node cs r)) :
    (∀ x ∈ opening up, (x.id == node.id) = false) ∧ l.any (·.id == node.id) = false ∧
      node.id ∉ ids cs ∧ node.id ∉ ids r := by
  rw [hf, ids_wrap, ids_append, ids_cons] at hnd
  have hup := (List.nodup_append.mp hnd).2.2
  have hin := (List.nodup_append.mp (List.nodup_append.mp hnd).2.1).1
  have hl := (List.nodup_append.mp hin).2.2
  have hn := (List.nodup_cons.mp (List.nodup_append.mp hin).2.1).1
  refine ⟨?_, ?_, fun h => hn (by simp [h]), fun h => hn (by simp [h])⟩
  · intro x hx
    simpa using hup x.id (List.mem_map_of_mem hx) node.id (by simp)
  · rw [any_id_eq_false_iff]
    exact fun h => hl node.id h node.id (by simp) rfl

theorem treeAt_spot (hnd : (ids f).Nodup) (hf : f = wrap up (l ++ cons node cs r)) :
    f.treeAt (·.id == node.id) = tree node cs := by
  obtain ⟨hup, hl, -, -⟩ := id_ne_of_spot hnd hf
  rw [hf, treeAt_wrap _ hup (by simp [any_append, any]), treeAt_append, treeAt_cons]
  simp [hl]

theorem above?_spot (hnd : (ids f).Nodup) (hf : f = wrap up (l ++ cons node cs r)) :
    f.above? (·.id == node.id) = some (up.map Frame.value) := by
  obtain ⟨hup, hl, -, -⟩ := id_ne_of_spot hnd hf
  rw [hf, above?_wrap _ hup (by simp [any_append, any]), above?_append, above?_cons]
  simp [hl]

theorem replace?_spot (hnd : (ids f).Nodup) (hf : f = wrap up (l ++ cons node cs r))
    (put : Node → Forest Node → Forest Node) :
    f.replace? (·.id == node.id) put = some (wrap up (l ++ (put node cs ++ r))) := by
  obtain ⟨hup, hl, -, -⟩ := id_ne_of_spot hnd hf
  rw [hf]
  refine replace?_wrap hup ?_
  rw [replace?_append_right _ _ hl]
  simp [replace?]

theorem replace_spot (hnd : (ids f).Nodup) (hf : f = wrap up (l ++ cons node cs r))
    (put : Node → Forest Node → Forest Node) :
    f.replace (·.id == node.id) put = wrap up (l ++ (put node cs ++ r)) := by
  simp [replace, replace?_spot hnd hf]

theorem prune_spot (hnd : (ids f).Nodup) (hf : f = wrap up (l ++ cons node cs r)) :
    f.prune (·.id == node.id) = wrap up (l ++ r) := by
  simp [prune, replace_spot hnd hf]

end Spot

theorem exists_spot {f : Forest Node} {n : NodeId} (h : n ∈ ids f) :
    ∃ up l node cs r, f = wrap up (l ++ cons node cs r) ∧ node.id = n := by
  obtain ⟨up, l, node, cs, r, hf, hn, -, -⟩ := exists_wrap (any_id_iff.mpr h)
  exact ⟨up, l, node, cs, r, hf, by simpa using hn⟩

/-! ## Trees at identifiers -/

section TreeAt

variable {f : Forest Node} {m n : NodeId} {node : Node} {cs : Forest Node}
  {put : Node → Forest Node → Forest Node}

theorem exists_treeAt (h : n ∈ ids f) :
    ∃ node cs, node.id = n ∧ f.treeAt (·.id == n) = tree node cs := by
  obtain ⟨node, cs, -, -, ht, hn, -⟩ := exists_toList_replace (any_id_iff.mpr h)
  exact ⟨node, cs, by simpa using hn, ht⟩

theorem treeAt_eq_nil_of_not_mem (h : n ∉ ids f) : f.treeAt (·.id == n) = nil :=
  treeAt_eq_nil (any_id_eq_false_iff.mpr h)

theorem mem_ids_of_treeAt (h : f.treeAt (·.id == n) = tree node cs) : n ∈ ids f ∧ node.id = n := by
  have hn : n ∈ ids f := by
    by_contra hn
    simp [treeAt_eq_nil_of_not_mem hn, tree] at h
  obtain ⟨node', cs', hid, ht⟩ := exists_treeAt hn
  rw [h] at ht
  cases ht
  exact ⟨hn, hid⟩

theorem replace_eq_self_of_not_mem (h : n ∉ ids f) : f.replace (·.id == n) put = f :=
  replace_eq_self (any_id_eq_false_iff.mpr h)

theorem prune_eq_self_of_not_mem (h : n ∉ ids f) : f.prune (·.id == n) = f :=
  replace_eq_self_of_not_mem h

theorem perm_ids_replace (put : Node → Forest Node → Forest Node)
    (h : f.treeAt (·.id == n) = tree node cs) :
    (ids (f.replace (·.id == n) put) ++ ids (tree node cs)).Perm (ids f ++ ids (put node cs)) := by
  obtain ⟨a, as, u, w, ht, -, hl, hput, -⟩ :=
    exists_toList_replace (any_id_iff.mpr (mem_ids_of_treeAt h).1)
  rw [h] at ht
  cases ht
  simp only [ids, hl, hput, tree, toList, List.append_nil, List.map_append, List.map_cons]
  generalize u.map Node.id = u, w.map Node.id = w, cs.toList.map Node.id = c,
    (put node cs).toList.map Node.id = x
  rw [List.perm_iff_count]
  intro i
  simp only [List.count_append, List.count_cons]
  omega

theorem ids_treeAt_sublist : (ids (f.treeAt (·.id == n))).Sublist (ids f) := by
  by_cases h : n ∈ ids f
  · obtain ⟨a, as, u, w, ht, -, hl, -⟩ := exists_toList_replace (any_id_iff.mpr h)
    simp only [ht, ids, tree, toList, hl, List.append_nil]
    exact ((List.sublist_append_left _ _).trans (List.sublist_append_right _ _)).map _
  · simp [treeAt_eq_nil_of_not_mem h]

theorem mem_ids_of_mem_treeAt (h : m ∈ ids (f.treeAt (·.id == n))) : m ∈ ids f :=
  ids_treeAt_sublist.mem h

/-- In a part of a forest without duplicates a node has the tree that it has in the forest. -/
theorem treeAt_part {g l r : Forest Node} {up : List (Frame Node)}
    (hnd : (ids (wrap up (l ++ (g ++ r)))).Nodup) (hm : m ∈ ids g) :
    (wrap up (l ++ (g ++ r))).treeAt (·.id == m) = g.treeAt (·.id == m) := by
  rw [ids_wrap, ids_append, ids_append] at hnd
  have hup : ∀ a ∈ opening up, (a.id == m) = false := by
    intro a ha
    simpa using (List.nodup_append.mp hnd).2.2 a.id (List.mem_map_of_mem ha) m (by simp [hm])
  have hin := (List.nodup_append.mp (List.nodup_append.mp hnd).2.1).1
  have hl : l.any (·.id == m) = false := by
    rw [any_id_eq_false_iff]
    exact fun h => (List.nodup_append.mp hin).2.2 m h m (by simp [hm]) rfl
  have hg : g.any (·.id == m) = true := any_id_iff.mpr hm
  rw [treeAt_wrap _ hup (by simp [any_append, hg]), treeAt_append, treeAt_append]
  simp [hl, hg]

theorem treeAt_treeAt (hnd : (ids f).Nodup) (h : m ∈ ids (f.treeAt (·.id == n))) :
    (f.treeAt (·.id == n)).treeAt (·.id == m) = f.treeAt (·.id == m) := by
  have hn : n ∈ ids f := by
    by_contra hn
    simp [treeAt_eq_nil_of_not_mem hn] at h
  obtain ⟨up, l, node, cs, r, hf, rfl⟩ := exists_spot hn
  rw [treeAt_spot hnd hf] at h ⊢
  rw [hf, ← treeAt_part (l := l) (g := tree node cs) (r := r) (by rw [hf] at hnd; exact hnd) h]
  rfl

/-- A change at `n` happens also in the tree at a node that is not itself changed. -/
theorem treeAt_replace (put : Node → Forest Node → Forest Node) (hnd : (ids f).Nodup)
    (hf : f.treeAt (·.id == n) = tree node cs)
    (hm : m ∉ ids (tree node cs)) (hput : m ∉ ids (put node cs)) :
    (f.replace (·.id == n) put).treeAt (·.id == m) =
      (f.treeAt (·.id == m)).replace (·.id == n) put := by
  have key : ∀ g : Forest Node, n ∉ ids g →
      (g.treeAt (·.id == m)).replace (·.id == n) put = g.treeAt (·.id == m) := fun g hg =>
    replace_eq_self_of_not_mem fun h => hg (mem_ids_of_mem_treeAt h)
  obtain ⟨hmn, hmc⟩ : m ≠ node.id ∧ m ∉ ids cs := by simpa using hm
  induction f with
  | nil => rfl
  | cons a as rest ihc ihr =>
    simp only [ids_cons, List.nodup_cons, List.nodup_append, List.mem_append, not_or] at hnd
    obtain ⟨⟨hac, har⟩, hndc, hndr, hdis⟩ := hnd
    rw [replace_cons]
    by_cases ha : a.id = n
    · -- The change is at the first root.
      rw [treeAt_cons] at hf
      simp only [ha, beq_self_eq_true, if_true] at hf ⊢
      cases hf
      rw [treeAt_append, treeAt_cons, any_id_eq_false_iff.mpr hput, any_id_eq_false_iff.mpr hmc]
      simp only [Bool.false_eq_true, if_false, beq_iff_eq, hmn.symm]
      exact (key rest (ha ▸ har)).symm
    · have hna : (a.id == n) = false := by simpa using ha
      rw [treeAt_cons] at hf
      simp only [hna, Bool.false_eq_true, if_false] at hf ⊢
      by_cases hc : n ∈ ids as
      · have hcb := any_id_iff.mpr hc
        have hnr : n ∉ ids rest := fun h => hdis n hc n h rfl
        simp only [hcb, if_true] at hf ⊢
        have hany : (as.replace (·.id == n) put).any (·.id == m) = as.any (·.id == m) := by
          rw [Bool.eq_iff_iff, any_id_iff, any_id_iff]
          have hp := (perm_ids_replace put hf).mem_iff (a := m)
          simpa [hmn, hmc, hput] using hp
        rw [treeAt_cons, treeAt_cons, hany, ihc hndc hf]
        by_cases hma : a.id = m
        · simp only [hma, beq_self_eq_true, if_true]
          rw [tree, tree, replace_cons]
          simp [hna, hcb]
        · simp only [beq_iff_eq, hma, if_false]
          split
          · rfl
          · rw [key rest hnr]
      · have hcb := any_id_eq_false_iff.mpr hc
        simp only [hcb, Bool.false_eq_true, if_false] at hf ⊢
        rw [treeAt_cons, treeAt_cons, ihr hndr hf]
        by_cases hma : a.id = m
        · have : n ∉ ids (tree a as) := by
            rw [ids_tree, List.mem_cons, not_or]
            exact ⟨fun h => ha h.symm, hc⟩
          simp [hma, replace_eq_self_of_not_mem this]
        · simp only [beq_iff_eq, hma, if_false]
          split
          · rw [key as hc]
          · rfl

/-- What stands in the place of a changed node is found there. -/
theorem treeAt_replace_of_mem (put : Node → Forest Node → Forest Node)
    (hnd : (ids (f.replace (·.id == n) put)).Nodup)
    (hf : f.treeAt (·.id == n) = tree node cs) (hm : m ∈ ids (put node cs)) :
    (f.replace (·.id == n) put).treeAt (·.id == m) = (put node cs).treeAt (·.id == m) := by
  obtain ⟨up, l, node', cs', r, rfl, hn, hup, hl⟩ :=
    exists_wrap (any_id_iff.mpr (mem_ids_of_treeAt hf).1)
  rw [treeAt_wrap _ hup (by simp [any_append, any, hn]), treeAt_append, treeAt_cons] at hf
  simp only [hl, Bool.false_eq_true, if_false, hn, if_true] at hf
  cases hf
  have hrep : (wrap up (l ++ cons node cs r)).replace (·.id == n) put =
      wrap up (l ++ (put node cs ++ r)) := by
    have : (l ++ cons node cs r).replace? (·.id == n) put = some (l ++ (put node cs ++ r)) := by
      rw [replace?_append_right _ _ hl]
      simp [replace?, hn]
    simp [replace, replace?_wrap hup this]
  rw [hrep] at hnd ⊢
  exact treeAt_part hnd hm

end TreeAt

/-- Numbers from `first` on are new next to smaller ones. -/
theorem nodup_append_range' {l : List NodeId} {first : Nat} (hl : l.Nodup)
    (hlt : ∀ i ∈ l, i.number < first) (k : Nat) :
    (l ++ (List.range' first k).map NodeId.mk).Nodup := by
  refine List.nodup_append.mpr ⟨hl, ?_, ?_⟩
  · refine List.pairwise_map.mpr (List.Pairwise.imp ?_ List.nodup_range')
    exact fun h he => h (congrArg NodeId.number he)
  · rintro i hi j hj rfl
    obtain ⟨k, hk, rfl⟩ := List.mem_map.mp hj
    exact absurd (List.mem_range'_1.mp hk).1 (by simpa using hlt _ hi)

/-! ## Documents without knots -/

namespace Document

/-- The same document with other trees. -/
def remake (d : Document) (trees : Forest Node) (fresh : Nat) : Document :=
  { d with trees, fresh }

@[simp] theorem remake_trees (d : Document) (f : Forest Node) (k : Nat) :
    (d.remake f k).trees = f := rfl

@[simp] theorem remake_fresh (d : Document) (f : Forest Node) (k : Nat) :
    (d.remake f k).fresh = k := rfl

@[simp] theorem remake_root (d : Document) (f : Forest Node) (k : Nat) :
    (d.remake f k).root = d.root := rfl

@[simp] theorem remake_remake (d : Document) (f g : Forest Node) (k l : Nat) :
    (d.remake f k).remake g l = d.remake g l := rfl

@[simp] theorem remake_self (d : Document) : d.remake d.trees d.fresh = d := rfl

theorem ids_eq (d : Document) : d.ids = Xml.ids d.trees := rfl

variable {d : Document}

namespace WellFormed

theorem ids_nodup (wf : d.WellFormed) : (Xml.ids d.trees).Nodup := wf.nodup

/-- A document with the identifiers of before and the next `k` ones. -/
theorem remake (wf : d.WellFormed) {f : Forest Node} (k : Nat)
    (h : (Xml.ids f).Perm (Xml.ids d.trees ++ (List.range' d.fresh k).map NodeId.mk)) :
    (d.remake f (d.fresh + k)).WellFormed where
  knots_eq := wf.knots_eq
  nodup := h.nodup_iff.mpr (nodup_append_range' wf.ids_nodup wf.lt_fresh k)
  lt_fresh n hn := by
    rcases List.mem_append.mp (h.mem_iff.mp hn) with hn | hn
    · exact Nat.lt_add_right k (wf.lt_fresh n hn)
    · obtain ⟨i, hi, rfl⟩ := List.mem_map.mp hn
      exact (List.mem_range'_1.mp hi).2
  root_mem := h.mem_iff.mpr (List.mem_append_left _ wf.root_mem)

theorem turn (wf : d.WellFormed) (n : NodeId) : d.turn n = d := by
  simp [Document.turn, wf.knots_eq]

theorem treeAt (wf : d.WellFormed) (n : NodeId) : d.treeAt n = d.trees.treeAt (·.id == n) := by
  rw [Document.treeAt, wf.turn]

theorem ancestors (wf : d.WellFormed) (n : NodeId) :
    d.ancestors n = ((d.trees.above? (·.id == n)).getD []).map Node.id := by
  simp [Document.ancestors, wf.knots_eq]

theorem relabel (wf : d.WellFormed) (n : NodeId) (change : Label → Label) :
    d.relabel n change =
      d.remake (d.trees.replace (·.id == n) fun node cs =>
        tree { node with label := change node.label } cs) d.fresh := by
  simp [Document.relabel, Document.remake, wf.knots_eq]

theorem detach (wf : d.WellFormed) (n : NodeId) :
    d.detach n =
      if (d.parent? n).isSome then
        d.remake (d.treeAt n ++ d.trees.prune (·.id == n)) d.fresh
      else d := by
  simp [Document.detach, Document.remake, wf.turn, wf.knots_eq]

theorem takeChildren (wf : d.WellFormed) (n : NodeId) :
    d.takeChildren n =
      (d.children n,
        d.remake ((d.treeAt n).firstChildren ++
          d.trees.replace (·.id == n) fun node _ => tree node nil) d.fresh) := by
  simp [Document.takeChildren, Document.remake, wf.turn, wf.knots_eq]

end WellFormed

theorem addCopies_eq (copies : Forest Label) :
    d.addCopies copies = d.remake (identify d.fresh copies ++ d.trees) (d.fresh + copies.size) :=
  rfl

/-! ## A node at a spot of a well-formed document -/

section Spot

variable {l r cs : Forest Node} {up : List (Frame Node)} {node : Node} {fr : Frame Node}

theorem treeAt_eq (wf : d.WellFormed) (h : d.trees = wrap up (l ++ cons node cs r)) :
    d.treeAt node.id = tree node cs := by
  rw [wf.treeAt, treeAt_spot wf.ids_nodup h]

theorem label?_eq (wf : d.WellFormed) (h : d.trees = wrap up (l ++ cons node cs r)) :
    d.label? node.id = some node.label := by
  simp [label?, treeAt_eq wf h, tree, roots]

theorem isNamed_eq (wf : d.WellFormed) (h : d.trees = wrap up (l ++ cons node cs r))
    (name : String) : d.isNamed node.id name = node.label.isNamed name := by
  simp [isNamed, name?, label?_eq wf h, Label.isNamed]

theorem children_eq (wf : d.WellFormed) (h : d.trees = wrap up (l ++ cons node cs r)) :
    d.children node.id = cs.roots.map Node.id := by
  simp [children, treeAt_eq wf h, tree, firstChildren]

theorem ancestors_eq (wf : d.WellFormed) (h : d.trees = wrap up (l ++ cons node cs r)) :
    d.ancestors node.id = up.map fun fr => fr.value.id := by
  simp [wf.ancestors, above?_spot wf.ids_nodup h]

theorem parent?_eq (wf : d.WellFormed) (h : d.trees = wrap up (l ++ cons node cs r)) :
    d.parent? node.id = up.head?.map fun fr => fr.value.id := by
  simp [parent?, ancestors_eq wf h]

/-- The spot of the node directly above. -/
theorem trees_eq_of_cons {f : Forest Node} (h : d.trees = wrap (fr :: up) f) :
    d.trees = wrap up (fr.before ++ cons fr.value f fr.after) := h

theorem siblings_eq (wf : d.WellFormed) (h : d.trees = wrap (fr :: up) (l ++ cons node cs r)) :
    d.siblings node.id = (l ++ cons node cs r).roots.map Node.id := by
  simp [siblings, parent?_eq wf h, children_eq wf (trees_eq_of_cons h)]

theorem detach_root_eq (wf : d.WellFormed) (h : d.trees = l ++ cons node cs r) :
    d.detach node.id = d := by
  rw [wf.detach, parent?_eq wf (eq_wrap_nil h)]
  simp

/-- A tree without parent goes to a node that is not in it. -/
theorem moveTo_eq {l₀ r₀ cs₀ : Forest Node} {moved : Node} (wf : d.WellFormed)
    (h : d.trees = l₀ ++ cons moved cs₀ r₀)
    (ho : l₀ ++ r₀ = wrap up (l ++ cons node cs r))
    (put : Forest Node → Node → Forest Node → Forest Node) :
    d.moveTo moved.id node.id put =
      d.remake (wrap up (l ++ (put (tree moved cs₀) node cs ++ r))) d.fresh := by
  have hprune : d.trees.prune (·.id == moved.id) = l₀ ++ r₀ :=
    prune_spot wf.ids_nodup (eq_wrap_nil h)
  have hnd : (Xml.ids (l₀ ++ r₀)).Nodup := by
    have hall := wf.ids_nodup
    rw [h] at hall
    refine hall.sublist ?_
    rw [ids_append, ids_append, ids_cons]
    exact (List.Sublist.refl _).append
      (((List.sublist_append_right _ _)).trans (List.sublist_cons_self _ _))
  rw [moveTo, detach_root_eq wf h, treeAt_eq wf (eq_wrap_nil h), hprune]
  simp only [replace?_spot hnd ho]
  rfl

end Spot

end Document

end WordTemplate.Xml
