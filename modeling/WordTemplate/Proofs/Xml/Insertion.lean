import WordTemplate.Proofs.Xml.Dividing
import WordTemplate.Proofs.Xml.Editing
import WordTemplate.Proofs.Xml.Moves

/-!
# Putting a node beside another one

A node that is put beside `reference` is taken from wherever it was: from another parent, from either side
of `reference`, or from outside. Unless it is `reference` itself or above it, it stands next to `reference`
afterwards, with everything below it, and no other link is changed (`PutBeside`).

* `WellFormed.putBeside_insertAfter`, `WellFormed.putBeside_insertBefore`: both sides.
* `WellFormed.neighbours_insertAfter`, `WellFormed.neighbours_insertBefore`: the two are neighbours.
* `insertBeside_self`: beside itself a node is only taken out. It has no place any more when the place is
  looked up.
-/

namespace WordTemplate.Xml.Document

open Forest

variable {d d' : Document} {n m p reference : NodeId} {pair : List NodeId}

/-- Whether `d'` is `d` with the tree at `n` beside `reference`, on the side that `pair` says. -/
structure PutBeside (d d' : Document) (reference n : NodeId) (pair : List NodeId) : Prop where
  moves : d.Moves d'
  treeAt_eq : d'.treeAt n = d.treeAt n
  /-- Among the other children of the parent the two stand where `reference` stood. -/
  children_parent : ∀ p, d.parent? reference = some p → ∃ l r,
    (d.children p).filter (· ≠ n) = l ++ reference :: r ∧ d'.children p = l ++ (pair ++ r)
  children_eq : ∀ q, d.parent? reference ≠ some q → d'.children q = (d.children q).filter (· ≠ n)
  parent?_self : d'.parent? n = d.parent? reference
  parent?_eq : ∀ m, m ≠ n → d'.parent? m = d.parent? m
  /-- Above the place nothing is lost, and the tree at `n` is added. -/
  mem_treeAt_iff : ∀ above, d.isAncestor above reference = true → ∀ m,
    m ∈ Xml.ids (d'.treeAt above) ↔ m ∈ Xml.ids (d.treeAt above) ∨ m ∈ Xml.ids (d.treeAt n)

/-! ## What is below the nodes above the place -/

/-- If `n` is a child of `p` from now on, and otherwise all children are those of before, then a tree that
has `p` in it gets that at `n` and loses nothing. -/
theorem Moves.mem_treeAt_iff (h : d.Moves d') (wf : d.WellFormed)
    (hmem : ∀ q i, i ∈ d'.children q ↔ (i ∈ d.children q ∧ i ≠ n) ∨ (i = n ∧ q = p))
    (hnot : p ∉ Xml.ids (d.treeAt n)) (htree : d'.treeAt n = d.treeAt n) {above : NodeId}
    (habove : p ∈ Xml.ids (d.treeAt above)) :
    m ∈ Xml.ids (d'.treeAt above) ↔ m ∈ Xml.ids (d.treeAt above) ∨ m ∈ Xml.ids (d.treeAt n) := by
  have wf' := h.grows.wellFormed
  have hids : above ∈ d.ids := by
    by_contra hn
    simp [wf.treeAt_eq_nil hn] at habove
  constructor
  · -- A step down in `d'` is a step down in `d` or the one to `n`.
    intro hm
    refine wf'.forall_mem_treeAt
      (P := fun i => i ∈ Xml.ids (d.treeAt above) ∨ i ∈ Xml.ids (d.treeAt n)) (fun q i hi hq => ?_) hm
      (.inl (wf.mem_treeAt_self hids))
    rcases (hmem q i).mp hi with ⟨hi, -⟩ | ⟨rfl, rfl⟩
    · exact hq.imp (wf.mem_treeAt_trans · (wf.mem_treeAt_of_mem_children hi))
        (wf.mem_treeAt_trans · (wf.mem_treeAt_of_mem_children hi))
    · right
      rw [← htree]
      exact wf'.mem_treeAt_self (wf'.mem_ids_of_mem_children hi)
  · -- A step down in `d` is a step down in `d'`, unless it leads to `n`.
    have hstay : ∀ i ∈ Xml.ids (d.treeAt above),
        i ∈ Xml.ids (d.treeAt n) ∨ i ∈ Xml.ids (d'.treeAt above) := by
      intro i hi
      refine wf.forall_mem_treeAt
        (P := fun i => i ∈ Xml.ids (d.treeAt n) ∨ i ∈ Xml.ids (d'.treeAt above)) (fun q j hj hq => ?_) hi
        (.inr (wf'.mem_treeAt_self (h.grows.mem_ids _ hids)))
      by_cases hjn : j = n
      · exact .inl (hjn ▸ wf.mem_treeAt_self (wf.mem_ids_of_mem_children hj))
      · exact hq.imp (wf.mem_treeAt_trans · (wf.mem_treeAt_of_mem_children hj))
          (wf'.mem_treeAt_trans · (wf'.mem_treeAt_of_mem_children ((hmem q j).mpr (.inl ⟨hj, hjn⟩))))
    have hn : n ∈ Xml.ids (d'.treeAt above) :=
      wf'.mem_treeAt_trans ((hstay p habove).resolve_left hnot)
        (wf'.mem_treeAt_of_mem_children ((hmem p n).mpr (.inr ⟨rfl, rfl⟩)))
    have hbelow : ∀ i ∈ Xml.ids (d.treeAt n), i ∈ Xml.ids (d'.treeAt above) := fun i hi =>
      wf'.mem_treeAt_trans hn (htree ▸ hi)
    rintro (hm | hm)
    · exact (hstay m hm).elim (hbelow m) id
    · exact hbelow m hm

theorem WellFormed.mem_treeAt_of_isAncestor_parent? {above : NodeId} (wf : d.WellFormed)
    (hp : d.parent? n = some p) (h : d.isAncestor above n = true) : p ∈ Xml.ids (d.treeAt above) := by
  rw [isAncestor, wf.ancestors_of_parent? hp, List.contains_iff_mem, List.mem_cons] at h
  rcases h with rfl | h
  · exact wf.mem_treeAt_self (wf.mem_ids_of_children (wf.parent?_eq_some_iff.mp hp))
  · exact wf.mem_treeAt_of_isAncestor (by rwa [isAncestor, List.contains_iff_mem])

/-! ## Both sides -/

section Sides

variable {put : Forest Node → Forest Node → Forest Node} (wf : d.WellFormed) (hn : n ∈ d.ids)
  (hp : (d.parent? reference).isSome) (hne : n ≠ reference) (habove : d.isAncestor n reference = false)
include wf hn hp hne habove

/-- Once it has been taken out, the node can be put in at `reference`. -/
theorem WellFormed.receives_of_not_isAncestor : (d.detach n).Receives n reference := by
  refine wf.receives_detach hn (wf.mem_ids_of_parent? hp) fun hmem => ?_
  rw [wf.isAncestor_of_mem hmem hne.symm] at habove
  cases habove

variable (hput : ∀ f g, put f g = f ++ g ∨ put f g = g ++ f)
  (hpair : ∀ a as b bs, a.id = n → b.id = reference →
    (put (tree a as) (tree b bs)).roots.map Node.id = pair)
include hput

theorem WellFormed.moves_insertBeside_of_not_isAncestor :
    d.Moves (d.insertBeside put reference n) ∧
      (d.insertBeside put reference n).treeAt n = d.treeAt n := by
  have wf₁ := (wf.grows_detach n).wellFormed
  have hr := wf.receives_of_not_isAncestor hn hp hne habove
  have hp₁ : ((d.detach n).parent? reference).isSome := by rwa [wf.parent?_detach_of_ne hne.symm]
  rw [← wf.insertBeside_detach hne.symm put hp]
  refine ⟨(wf.moves_detach n).trans (wf₁.moves_insertBeside hr hp₁ hput), ?_⟩
  rw [wf₁.treeAt_insertBeside hr hp₁ hput, if_pos (.inl (wf₁.mem_treeAt_self hr.mem_ids)),
    wf.treeAt_detach, if_pos rfl]

include hpair

theorem WellFormed.children_insertBeside_of_not_isAncestor (q : NodeId) :
    (d.insertBeside put reference n).children q =
      ((d.children q).filter (· ≠ n)).flatMap fun i => if i = reference then pair else [i] := by
  have wf₁ := (wf.grows_detach n).wellFormed
  have hr := wf.receives_of_not_isAncestor hn hp hne habove
  have hp₁ : ((d.detach n).parent? reference).isSome := by rwa [wf.parent?_detach_of_ne hne.symm]
  obtain ⟨a, as, ha, hta⟩ := wf₁.exists_treeAt hr.mem_ids
  obtain ⟨b, bs, hb, htb⟩ := wf₁.exists_treeAt hr.target_mem_ids
  rw [← wf.insertBeside_detach hne.symm put hp, wf₁.children_insertBeside hr hp₁ hput,
    wf.children_detach, hta, htb, hpair a as b bs ha hb]

theorem WellFormed.putBeside_insertBeside :
    d.PutBeside (d.insertBeside put reference n) reference n pair := by
  obtain ⟨hmoves, htree⟩ := wf.moves_insertBeside_of_not_isAncestor hn hp hne habove hput
  have hchildren := wf.children_insertBeside_of_not_isAncestor hn hp hne habove hput hpair
  have hout := (wf.receives_of_not_isAncestor hn hp hne habove).target_not_mem
  rw [wf.treeAt_detach, if_pos rfl] at hout
  obtain ⟨p, hp⟩ := Option.isSome_iff_exists.mp hp
  have hreference := wf.parent?_eq_some_iff.mp hp
  have hnot : p ∉ Xml.ids (d.treeAt n) := fun hmem => hout (wf.mem_of_parent?_mem hp hmem)
  have hmem : ∀ q i, i ∈ (d.insertBeside put reference n).children q ↔
      (i ∈ d.children q ∧ i ≠ n) ∨ (i = n ∧ q = p) := by
    intro q i
    have hpair' : i ∈ pair ↔ i = reference ∨ i = n := by
      rw [← hpair ⟨n, default⟩ nil ⟨reference, default⟩ nil rfl rfl]
      rcases hput (tree ⟨n, default⟩ nil) (tree ⟨reference, default⟩ nil) with h | h <;>
        simp [h, or_comm]
    have hq : reference ∈ d.children q ↔ q = p := by
      rw [← wf.parent?_eq_some_iff, hp, Option.some.injEq, eq_comm]
    rw [hchildren, mem_flatMap_iff, List.mem_filter, List.mem_filter, hpair']
    grind
  exact {
    moves := hmoves
    treeAt_eq := htree
    children_parent := fun q hq => by
      obtain rfl : p = q := Option.some.inj (hp.symm.trans hq)
      obtain ⟨l, r, hlr⟩ := List.append_of_mem
        (List.mem_filter.mpr ⟨hreference, by simpa using hne.symm⟩ :
          reference ∈ (d.children p).filter (· ≠ n))
      have hnd : (l ++ reference :: r).Nodup := hlr ▸ (wf.nodup_children p).filter _
      rw [List.nodup_append, List.nodup_cons] at hnd
      refine ⟨l, r, hlr, ?_⟩
      rw [hchildren, hlr, List.flatMap_append, List.flatMap_cons, if_pos rfl,
        flatMap_eq_self fun h => hnd.2.2 _ h _ List.mem_cons_self rfl, flatMap_eq_self hnd.2.1.1]
    children_eq := fun q hq => by
      rw [hchildren, flatMap_eq_self]
      exact fun hmem => hq (wf.parent?_eq_some_iff.mpr (List.mem_of_mem_filter hmem))
    parent?_self := by
      rw [hp, hmoves.grows.wellFormed.parent?_eq_some_iff, hmem]
      exact .inr ⟨rfl, rfl⟩
    parent?_eq := fun m hm => wf.parent?_congr hmoves.grows.wellFormed fun q => by
      rw [hmem]
      simp [hm]
    mem_treeAt_iff := fun above hab m => hmoves.mem_treeAt_iff wf hmem hnot htree
      (wf.mem_treeAt_of_isAncestor_parent? hp hab) }

end Sides

section Neighbours

variable (wf : d.WellFormed) (hn : n ∈ d.ids) (hp : (d.parent? reference).isSome) (hne : n ≠ reference)
  (habove : d.isAncestor n reference = false)
include wf hn hp hne habove

/-- A node that is put behind `reference` stands there, and nothing else is changed. -/
theorem WellFormed.putBeside_insertAfter :
    d.PutBeside (d.insertAfter reference n) reference n [reference, n] :=
  wf.putBeside_insertBeside hn hp hne habove (fun _ _ => .inr rfl) fun a as b bs ha hb => by simp [ha, hb]

/-- A node that is put in front of `reference` stands there, and nothing else is changed. -/
theorem WellFormed.putBeside_insertBefore :
    d.PutBeside (d.insertBefore reference n) reference n [n, reference] :=
  wf.putBeside_insertBeside hn hp hne habove (fun _ _ => .inl rfl) fun a as b bs ha hb => by simp [ha, hb]

theorem WellFormed.neighbours_insertAfter :
    (d.insertAfter reference n).nextSibling? reference = some n ∧
      (d.insertAfter reference n).previousSibling? n = some reference := by
  have hput := wf.putBeside_insertAfter hn hp hne habove
  obtain ⟨p, hp⟩ := Option.isSome_iff_exists.mp hp
  obtain ⟨l, r, -, h⟩ := hput.children_parent p hp
  have wf' := hput.moves.grows.wellFormed
  exact ⟨wf'.nextSibling?_of_children h, wf'.previousSibling?_of_children h⟩

theorem WellFormed.neighbours_insertBefore :
    (d.insertBefore reference n).nextSibling? n = some reference ∧
      (d.insertBefore reference n).previousSibling? reference = some n := by
  have hput := wf.putBeside_insertBefore hn hp hne habove
  obtain ⟨p, hp⟩ := Option.isSome_iff_exists.mp hp
  obtain ⟨l, r, -, h⟩ := hput.children_parent p hp
  have wf' := hput.moves.grows.wellFormed
  exact ⟨wf'.nextSibling?_of_children h, wf'.previousSibling?_of_children h⟩

end Neighbours

/-! ## Beside itself -/

/-- A node that is put beside itself is taken out. -/
theorem insertBeside_self (put : Forest Node → Forest Node → Forest Node) (n : NodeId) :
    d.insertBeside put n n = d.detach n := by
  rw [insertBeside]
  cases hp : d.parent? n with
  | none => simp [detach, hp]
  | some p => simp

/-- `<r><a/><b/></r>`. -/
def twoChildren : Document :=
  ofTree ⟨"r", []⟩ (tree (.element ⟨"a", []⟩) nil ++ tree (.element ⟨"b", []⟩) nil)

/-- The first of two siblings is lost when it is put beside itself, on either side. -/
theorem insertion_beside_itself_loses :
    twoChildren.WellFormed ∧ twoChildren.parent? ⟨1⟩ = some ⟨0⟩ ∧
      twoChildren.isAncestor ⟨1⟩ ⟨1⟩ = false ∧ twoChildren.children ⟨0⟩ = [⟨1⟩, ⟨2⟩] ∧
      (twoChildren.insertAfter ⟨1⟩ ⟨1⟩).children ⟨0⟩ = [⟨2⟩] ∧
      (twoChildren.insertAfter ⟨1⟩ ⟨1⟩).parent? ⟨1⟩ = none ∧
      (twoChildren.insertBefore ⟨1⟩ ⟨1⟩).children ⟨0⟩ = [⟨2⟩] ∧
      (twoChildren.insertBefore ⟨1⟩ ⟨1⟩).parent? ⟨1⟩ = none :=
  ⟨wellFormed_ofTree .., by decide⟩

end WordTemplate.Xml.Document
