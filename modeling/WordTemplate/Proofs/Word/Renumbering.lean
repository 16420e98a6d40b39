import Mathlib.Data.Finset.Card
import Mathlib.Order.Bounds.Defs
import Mathlib.Order.Interval.Finset.Nat
import WordTemplate.Proofs.Word.Drawings

/-!
# Which numbers are given to drawings

Of the drawings with one number the first keeps it, and each of the others gets the smallest number that none had
at the outset and none has been given. So the numbers that are given increase, and there are never more of them
in use than drawings.

* `isLeast_firstUnused`: what one step gives.
* `newNumbers_isLeast`, `newNumbers_le`: what a run gives.
* `renumberDrawings_givesNumbers`: which drawings below a node get which numbers, and that nothing else changes.
-/

namespace WordTemplate

namespace Forest

variable {α β γ : Type} {f : Forest α}

theorem map_congr {g h : α → β} (hgh : ∀ a ∈ f.toList, g a = h a) : f.map g = f.map h := by
  induction f with
  | nil => rfl
  | cons a cs rest ihc ihr =>
    simp only [toList, List.mem_cons, List.mem_append] at hgh
    rw [map, map, hgh a (.inl rfl), ihc fun b hb => hgh b (.inr (.inl hb)),
      ihr fun b hb => hgh b (.inr (.inr hb))]

theorem map_id (f : Forest α) : f.map id = f := by
  induction f with
  | nil => rfl
  | cons a cs rest ihc ihr => rw [map, ihc, ihr, id]

theorem map_map (g : α → β) (h : β → γ) (f : Forest α) : (f.map g).map h = f.map (h ∘ g) := by
  induction f with
  | nil => rfl
  | cons a cs rest ihc ihr => rw [map, map, map, ihc, ihr, Function.comp_apply]

theorem firstChildren_map (g : α → β) (f : Forest α) : (f.map g).firstChildren = f.firstChildren.map g := by
  cases f <;> rfl

/-- Looking for a node where all values were changed. -/
theorem treeAt_map {p : α → Bool} {g : α → α} (hg : ∀ a, p (g a) = p a) (f : Forest α) :
    (f.map g).treeAt p = (f.treeAt p).map g := by
  have hany : ∀ f : Forest α, (f.map g).any p = f.any p := fun f => by
    rw [any_eq_toList, any_eq_toList, toList_map, List.any_map]
    exact congrArg f.toList.any (funext hg)
  induction f with
  | nil => rfl
  | cons a cs rest ihc ihr =>
    rw [map, treeAt_cons, treeAt_cons, hg, hany, ihc, ihr]
    split
    · rfl
    · split <;> rfl

end Forest

namespace Xml

open Forest

variable {d : Document} {root n : NodeId} {found given : List (NodeId × Nat)} {used seen : List Nat}
  {next first number : Nat}

namespace Document

/-! ## One number -/

/-- The smallest number that is not in use, from some number on. -/
theorem isLeast_firstUnused (used : List Nat) (first : Nat) :
    IsLeast {k | first ≤ k ∧ k ∉ used} (firstUnused used first) := by
  have hfree := firstUnused_not_mem used first
  rw [firstUnused] at hfree ⊢
  cases hfind : (List.range' first (used.length + 1)).find? (!used.contains ·) with
  | some k =>
    rw [hfind] at hfree
    obtain ⟨-, hmem, hbelow⟩ := List.find?_range'_eq_some.mp hfind
    refine ⟨⟨(List.mem_range'_1.mp hmem).1, hfree⟩, fun j hj => ?_⟩
    by_contra hlt
    simpa [hj.2] using hbelow j hj.1 (not_le.mp hlt)
  | none =>
    rw [hfind] at hfree
    exact ⟨⟨Nat.le_refl _, hfree⟩, fun j hj => hj.1⟩

/-- Whether no number below `next` is free. -/
structure FullBelow (used : List Nat) (next : Nat) : Prop where
  pos : 0 < next
  mem : ∀ k, 0 < k → k < next → k ∈ used

/-- Then the smallest free number from `next` on is the smallest of all. -/
theorem FullBelow.isLeast (h : FullBelow used next) :
    IsLeast {k | 0 < k ∧ k ∉ used} (firstUnused used next) := by
  obtain ⟨⟨hle, hfree⟩, hleast⟩ := isLeast_firstUnused used next
  refine ⟨⟨Nat.lt_of_lt_of_le h.pos hle, hfree⟩, fun k hk => hleast ⟨?_, hk.2⟩⟩
  by_contra hlt
  exact hk.2 (h.mem k hk.1 (not_le.mp hlt))

/-- After it has been given no number below it is free. -/
theorem FullBelow.give (h : FullBelow used next) :
    FullBelow (firstUnused used next :: used) (firstUnused used next) := by
  obtain ⟨hfree, hleast⟩ := h.isLeast
  refine ⟨hfree.1, fun k hk hlt => List.mem_cons_of_mem _ ?_⟩
  by_contra hnot
  exact absurd (hleast ⟨hk, hnot⟩) (not_le.mpr hlt)

/-- At most as many numbers as there are in use are smaller. -/
theorem le_card_of_isLeast {k : Nat} (h : IsLeast {k | 0 < k ∧ k ∉ used} k) : k ≤ used.toFinset.card + 1 := by
  have hsubset : Finset.Ico 1 k ⊆ used.toFinset := by
    intro j hj
    rw [Finset.mem_Ico] at hj
    rw [List.mem_toFinset]
    by_contra hnot
    exact absurd (h.2 ⟨hj.1, hnot⟩) (not_le.mpr hj.2)
  have := Finset.card_le_card hsubset
  rw [Nat.card_Ico] at this
  omega

/-! ## A run -/

/-- The drawings whose number has been seen, with the numbers that they get. -/
def newNumbers (used seen : List Nat) (next : Nat) : List (NodeId × Nat) → List (NodeId × Nat)
  | [] => []
  | (n, number) :: others =>
    if seen.contains number then
      (n, firstUnused used next) ::
        newNumbers (firstUnused used next :: used) (firstUnused used next :: seen) (firstUnused used next) others
    else newNumbers used (number :: seen) next others

theorem renumber_eq_foldl (used seen : List Nat) (next : Nat) (d : Document) (found : List (NodeId × Nat)) :
    renumber used seen next d found =
      (newNumbers used seen next found).foldl (fun d e => d.setAttribute e.1 "id" (toString e.2)) d := by
  induction found generalizing used seen next d with
  | nil => rfl
  | cons e found ih =>
    rw [renumber, newNumbers]
    split
    · rw [ih, List.foldl_cons]
    · rw [ih]

theorem newNumbers_sublist (used seen : List Nat) (next : Nat) (found : List (NodeId × Nat)) :
    ((newNumbers used seen next found).map Prod.fst).Sublist (found.map Prod.fst) := by
  induction found generalizing used seen next with
  | nil => exact .slnil
  | cons e found ih =>
    rw [newNumbers]
    split
    · exact (ih ..).cons_cons _
    · exact (ih ..).cons _

/-- Those drawings get a number whose own one an earlier drawing has. -/
theorem mem_newNumbers_iff (seen : List Nat) (next : Nat) (hused : ∀ e ∈ found, e.2 ∈ used)
    (hnodup : (found.map Prod.fst).Nodup) {l r : List (NodeId × Nat)} {e : NodeId × Nat}
    (he : found = l ++ e :: r) :
    e.1 ∈ (newNumbers used seen next found).map Prod.fst ↔ e.2 ∈ seen ∨ e.2 ∈ l.map Prod.snd := by
  induction found generalizing used seen next l with
  | nil => simp at he
  | cons first found ih =>
    rw [List.forall_mem_cons] at hused
    rw [List.map_cons, List.nodup_cons] at hnodup
    have hsublist := fun used seen next => (newNumbers_sublist used seen next found).subset
    rw [newNumbers]
    cases l with
    | nil =>
      obtain ⟨rfl, rfl⟩ := List.cons.inj he
      split
      · next hseen => simpa using hseen
      · next hseen =>
        refine iff_of_false (fun h => hnodup.1 (hsublist _ _ _ h)) ?_
        simpa using hseen
    | cons first' l =>
      obtain ⟨rfl, rfl⟩ := List.cons.inj he
      have hne : e.1 ≠ first.1 := fun h => hnodup.1 (h ▸ List.mem_map_of_mem (by simp))
      have heused : e.2 ∈ used := hused.2 e (by simp)
      split
      · next hseen =>
        have hfree : e.2 ≠ firstUnused used next := fun h => firstUnused_not_mem used next (h ▸ heused)
        have hsame : e.2 = first.2 → e.2 ∈ seen := fun h => by simpa [h] using hseen
        rw [List.map_cons, List.mem_cons, ih _ _ (fun e he => List.mem_cons_of_mem _ (hused.2 e he)) hnodup.2 rfl,
          List.mem_cons, List.map_cons, List.mem_cons]
        tauto
      · rw [ih _ _ hused.2 hnodup.2 rfl, List.mem_cons, List.map_cons, List.mem_cons]
        tauto

/-- Each number that is given is the smallest one that is not in use and has not been given. -/
theorem newNumbers_isLeast (seen : List Nat) (hfull : FullBelow used next) {earlier later : List (NodeId × Nat)}
    {e : NodeId × Nat} (he : newNumbers used seen next found = earlier ++ e :: later) :
    IsLeast {k | 0 < k ∧ k ∉ used ∧ k ∉ earlier.map Prod.snd} e.2 := by
  induction found generalizing used seen next earlier with
  | nil => simp [newNumbers] at he
  | cons first found ih =>
    rw [newNumbers] at he
    split at he
    · cases earlier with
      | nil =>
        obtain ⟨rfl, -⟩ := List.cons.inj he
        simpa using hfull.isLeast
      | cons first' earlier =>
        obtain ⟨rfl, hlater⟩ := List.cons.inj he
        simpa [not_or, and_assoc, and_left_comm] using ih _ hfull.give hlater
    · exact ih _ hfull he

/-- Numbers of which each is the smallest one in this sense increase. -/
theorem pairwise_lt_of_isLeast (h : ∀ earlier e later, given = earlier ++ e :: later →
    IsLeast {k | 0 < k ∧ k ∉ used ∧ k ∉ earlier.map Prod.snd} e.2) :
    (given.map Prod.snd).Pairwise (· < ·) := by
  rw [List.pairwise_map, List.pairwise_iff_getElem]
  intro i j hi hj hij
  have hsplit : ∀ k (hk : k < given.length), given = given.take k ++ given[k] :: given.drop (k + 1) :=
    fun k hk => by simp
  have hsub : given.take i ⊆ given.take j := (List.take_prefix_take_left (Nat.le_of_lt hij)).subset
  have hmem : given[i] ∈ given.take j := List.mem_take_iff_getElem.mpr ⟨i, by omega, rfl⟩
  obtain ⟨-, hleast⟩ := h _ _ _ (hsplit i hi)
  obtain ⟨⟨hpos, hunused, hnew⟩, -⟩ := h _ _ _ (hsplit j hj)
  refine lt_of_le_of_ne (hleast ⟨hpos, hunused, fun hm => hnew (List.map_subset _ hsub hm)⟩) fun heq => ?_
  exact hnew (heq ▸ List.mem_map_of_mem hmem)

/-- There are no more numbers in use than drawings, so no larger one is given. -/
theorem newNumbers_le (seen : List Nat) (found : List (NodeId × Nat)) (hfull : FullBelow used next) :
    ∀ e ∈ newNumbers used seen next found, e.2 ≤ used.toFinset.card + (newNumbers used seen next found).length := by
  induction found generalizing used seen next with
  | nil => simp [newNumbers]
  | cons first found ih =>
    rw [newNumbers]
    split
    · have hcard := le_card_of_isLeast hfull.isLeast
      have hmore : (firstUnused used next :: used).toFinset.card = used.toFinset.card + 1 := by
        rw [List.toFinset_cons, Finset.card_insert_of_notMem (by simpa using hfull.isLeast.1.2)]
      intro e he
      rw [List.length_cons]
      rcases List.mem_cons.mp he with rfl | he
      · dsimp only
        omega
      · have := ih _ hfull.give e he
        omega
    · exact ih _ hfull

/-- A drawing gets a number, or it is the only one that counts for the number that it has. -/
theorem card_add_length_newNumbers (seen : List Nat) (next : Nat) (hused : ∀ e ∈ found, e.2 ∈ used) :
    ((found.map Prod.snd).filter (· ∉ seen)).toFinset.card + (newNumbers used seen next found).length =
      found.length := by
  induction found generalizing used seen next with
  | nil => rfl
  | cons e found ih =>
    rw [List.forall_mem_cons] at hused
    rw [newNumbers, List.map_cons]
    split
    · next hseen =>
      have hseen : e.2 ∈ seen := by simpa using hseen
      have := ih (firstUnused used next :: seen) (firstUnused used next) fun e he =>
        List.mem_cons_of_mem (firstUnused used next) (hused.2 e he)
      have hsame : (found.map Prod.snd).filter (· ∉ firstUnused used next :: seen) =
          (found.map Prod.snd).filter (· ∉ seen) := by
        refine List.filter_congr fun k hk => ?_
        obtain ⟨e', he', rfl⟩ := List.mem_map.mp hk
        have : e'.2 ≠ firstUnused used next := fun h => firstUnused_not_mem used next (h ▸ hused.2 e' he')
        simp [this]
      rw [hsame] at this
      rw [List.filter_cons_of_neg (by simpa using hseen), List.length_cons, List.length_cons]
      omega
    · next hseen =>
      have hseen : e.2 ∉ seen := by simpa using hseen
      have := ih (e.2 :: seen) next hused.2
      have hinsert : (e.2 :: (found.map Prod.snd).filter (· ∉ seen)).toFinset =
          insert e.2 ((found.map Prod.snd).filter (· ∉ e.2 :: seen)).toFinset := by
        ext k
        simp only [List.toFinset_cons, Finset.mem_insert, List.mem_toFinset, List.mem_filter, List.mem_cons]
        grind
      rw [List.filter_cons_of_pos (by simpa using hseen), hinsert, Finset.card_insert_of_notMem (by simp),
        List.length_cons]
      omega

end Document

/-! ## The document -/

/-- The node with its number among those given, if it is. -/
def Node.numbered (given : List (NodeId × Nat)) (node : Node) : Node :=
  match given.lookup node.id with
  | some k => { node with label := node.label.setAttribute "id" (toString k) }
  | none => node

@[simp] theorem Node.id_numbered (given : List (NodeId × Nat)) (node : Node) :
    (node.numbered given).id = node.id := by
  unfold numbered
  split <;> rfl

theorem map_eq_self {g : Node → Node} {f : Forest Node} (h : ∀ node ∈ f.toList, g node = node) : f.map g = f :=
  (map_congr h).trans (map_id f)

/-- Changing the label of one node changes nothing else. -/
theorem replace_label_eq_map {f : Forest Node} (hnd : (ids f).Nodup) (n : NodeId) (change : Label → Label) :
    (f.replace (·.id == n) fun node cs => tree { node with label := change node.label } cs) =
      f.map fun node => if node.id = n then { node with label := change node.label } else node := by
  have hself : ∀ f : Forest Node, n ∉ ids f →
      (f.map fun node => if node.id = n then { node with label := change node.label } else node) = f :=
    fun f hn => map_eq_self fun node hnode => if_neg fun he => hn (by
      rw [← he]
      exact List.mem_map_of_mem hnode)
  induction f with
  | nil => rfl
  | cons a as rest ihc ihr =>
    rw [ids_cons, List.nodup_cons, List.mem_append, not_or, List.nodup_append] at hnd
    obtain ⟨⟨hac, har⟩, hndc, hndr, hdis⟩ := hnd
    rw [replace_cons, Forest.map]
    by_cases ha : a.id = n
    · rw [if_pos (by simpa using ha), if_pos ha, hself _ (ha ▸ hac), hself _ (ha ▸ har)]
      rfl
    · rw [if_neg (by simpa using ha), if_neg ha]
      by_cases hc : n ∈ ids as
      · rw [if_pos (any_id_iff.mpr hc), ihc hndc, hself rest fun hr => hdis n hc n hr rfl]
      · rw [if_neg (by simpa [any_id_iff] using hc), ihr hndr, hself as hc]

/-- A number that is given is read again. -/
theorem Label.drawingNumber?_setAttribute {l : Label} (hl : l.isNamed Word.drawing = true)
    (hlt : number < Text.bound32) : (l.setAttribute "id" (toString number)).drawingNumber? = some number := by
  rw [drawingNumber?, isNamed_setAttribute, if_pos hl,
    attribute?_setAttribute_self (WellMarked.isElement_of_isNamed hl), Option.bind_some,
    Text.readNatural?_toString, Option.filter_some, if_pos (by simpa using hlt)]

theorem Label.isNamed_of_drawingNumber? {l : Label} (h : l.drawingNumber? = some number) :
    l.isNamed Word.drawing = true := by
  rw [drawingNumber?] at h
  split at h
  · next hl => exact hl
  · cases h

namespace Document

/-- Giving numbers to several nodes, one after another. -/
theorem WellFormed.foldl_setAttribute (wf : d.WellFormed) (hnodup : (given.map Prod.fst).Nodup) :
    given.foldl (fun d e => d.setAttribute e.1 "id" (toString e.2)) d =
      { d with trees := d.trees.map (Node.numbered given) } := by
  induction given generalizing d with
  | nil =>
    rw [show d.trees.map (Node.numbered []) = d.trees from map_eq_self fun _ _ => rfl]
    rfl
  | cons e given ih =>
    rw [List.map_cons, List.nodup_cons] at hnodup
    have wf₁ := (wf.grows_relabel e.1 (Label.setAttribute "id" (toString e.2))).wellFormed
    rw [List.foldl_cons, setAttribute, ih wf₁ hnodup.2, wf.relabel, replace_label_eq_map wf.ids_nodup, remake_trees,
      Forest.map_map]
    refine congrArg (fun trees => { d with trees }) (map_congr fun node _ => ?_)
    rw [Function.comp_apply]
    by_cases he : node.id = e.1
    · have hnone : given.lookup e.1 = none := List.lookup_eq_none_iff.mpr fun e' he' =>
        bne_iff_ne.mpr fun h => hnodup.1 (List.mem_map.mpr ⟨e', he', h.symm⟩)
      rw [if_pos he, Node.numbered, Node.numbered, he, hnone, List.lookup_cons, beq_self_eq_true]
    · have hne : (node.id == e.1) = false := beq_false_of_ne he
      rw [if_neg he, Node.numbered, Node.numbered, List.lookup_cons, hne]

/-- Whether the drawings below `root` whose number an earlier one has are given numbers, and nothing else is
changed. -/
structure GivesNumbers (d d' : Document) (root : NodeId) (given : List (NodeId × Nat)) : Prop where
  /-- Those to which a number is given are drawings with a number, in document order. -/
  sublist : (given.map Prod.fst).Sublist ((d.drawings root).map Prod.fst)
  /-- The first drawing with a number keeps it. -/
  mem_iff : ∀ l e r, d.drawings root = l ++ e :: r → (e.1 ∈ given.map Prod.fst ↔ e.2 ∈ l.map Prod.snd)
  /-- Each number that is given is the smallest one that no drawing had and that has not been given. -/
  isLeast : ∀ earlier e later, given = earlier ++ e :: later →
    IsLeast {k | 0 < k ∧ k ∉ (d.drawings root).map Prod.snd ∧ k ∉ earlier.map Prod.snd} e.2
  pairwise_lt : (given.map Prod.snd).Pairwise (· < ·)
  lt_bound : ∀ e ∈ given, e.2 < Text.bound32
  /-- The numbers are written into the labels of these nodes. -/
  eq_map : d' = { d with trees := d.trees.map (Node.numbered given) }
  /-- The numbers that the drawings have afterwards. -/
  drawings_eq : d'.drawings root = (d.drawings root).map fun e => (e.1, (given.lookup e.1).getD e.2)
  nodup : ((d'.drawings root).map Prod.snd).Nodup

/-- The drawings of a document in which nodes have got numbers. -/
theorem WellFormed.drawings_numbered (wf : d.WellFormed)
    (wf' : ({ d with trees := d.trees.map (Node.numbered given) } : Document).WellFormed)
    (hgiven : given.map Prod.fst ⊆ (d.drawings root).map Prod.fst) (hlt : ∀ e ∈ given, e.2 < Text.bound32) :
    ({ d with trees := d.trees.map (Node.numbered given) } : Document).drawings root =
      (d.drawings root).map fun e => (e.1, (given.lookup e.1).getD e.2) := by
  have hbelow : ({ d with trees := d.trees.map (Node.numbered given) } : Document).nodesBelow root =
      (d.nodesBelow root).map (Node.numbered given) := by
    rw [nodesBelow, nodesBelow, wf'.treeAt, wf.treeAt, treeAt_map (by simp), firstChildren_map, toList_map]
  rw [drawings_eq, drawings_eq, hbelow, List.filterMap_map, List.map_filterMap]
  refine List.filterMap_congr fun node hnode => ?_
  rw [Function.comp_apply, Node.id_numbered, Option.map_map, Node.numbered]
  cases hlookup : given.lookup node.id with
  | none => simp [Function.comp_def, hlookup]
  | some k =>
    have hmem : (node.id, k) ∈ given := by
      obtain ⟨l, r, rfl, -⟩ := List.lookup_eq_some_iff.mp hlookup
      simp
    obtain ⟨e, he, hid⟩ := List.mem_map.mp (hgiven (List.mem_map_of_mem hmem))
    have hnumber : node.label.drawingNumber? = some e.2 := by
      have := (wf.mem_drawings_iff.mp he).2
      rw [hid, drawingNumber?, wf.label?_of_mem_nodesBelow hnode] at this
      exact this
    dsimp only
    rw [Label.drawingNumber?_setAttribute (Label.isNamed_of_drawingNumber? hnumber) (hlt _ hmem), hnumber]
    simp [hlookup]

theorem length_drawings_le (d : Document) (root : NodeId) :
    (d.drawings root).length ≤ ((d.nodesBelow root).filter (·.label.isNamed Word.drawing)).length := by
  rw [drawings_eq, List.length_filterMap_eq_countP, ← List.countP_eq_length_filter]
  refine List.countP_mono_left fun node _ h => ?_
  rw [Option.isSome_map] at h
  obtain ⟨number, hnumber⟩ := Option.isSome_iff_exists.mp h
  exact Label.isNamed_of_drawingNumber? hnumber

/-- Drawings are given numbers only where one is repeated, and the smallest numbers that there are. -/
theorem renumberDrawings_givesNumbers (wf : d.WellFormed)
    (hcount : ((d.nodesBelow root).filter (·.label.isNamed Word.drawing)).length < 2 ^ 32 - 1) :
    ∃ given, GivesNumbers d (d.renumberDrawings root) root given := by
  have hused : ∀ e ∈ d.drawings root, e.2 ∈ (d.drawings root).map Prod.snd := fun e he => List.mem_map_of_mem he
  have hfull : FullBelow ((d.drawings root).map Prod.snd) 1 := ⟨Nat.one_pos, fun k hk hlt => by omega⟩
  obtain ⟨given, hgiven⟩ : ∃ given,
      newNumbers ((d.drawings root).map Prod.snd) [] 1 (d.drawings root) = given := ⟨_, rfl⟩
  have hsublist := newNumbers_sublist ((d.drawings root).map Prod.snd) [] 1 (d.drawings root)
  have hleast : ∀ earlier e later, given = earlier ++ e :: later →
      IsLeast {k | 0 < k ∧ k ∉ (d.drawings root).map Prod.snd ∧ k ∉ earlier.map Prod.snd} e.2 :=
    fun _ _ _ he => newNumbers_isLeast [] hfull (hgiven.trans he)
  have hle := newNumbers_le [] (d.drawings root) hfull
  have hcard := card_add_length_newNumbers [] 1 hused
  have heq : d.renumberDrawings root = _ := renumber_eq_foldl ((d.drawings root).map Prod.snd) [] 1 d (d.drawings root)
  rw [hgiven] at hsublist hle hcard heq
  have hlt : ∀ e ∈ given, e.2 < Text.bound32 := by
    intro e he
    have := hle e he
    have := length_drawings_le d root
    have : Text.bound32 = 2 ^ 32 := rfl
    simp only [List.not_mem_nil, not_false_eq_true, decide_true, List.filter_true] at hcard
    omega
  have hmap := heq.trans (wf.foldl_setAttribute (hsublist.nodup wf.nodup_drawings))
  have wf' : (d.renumberDrawings root).WellFormed :=
    (renumber_lessens (I := fun _ => True) wf trivial (fun _ _ _ _ _ => trivial) ..).wellFormed
  refine ⟨given, ?_⟩
  exact
    { sublist := hsublist
      mem_iff := fun l e r he => by
        simpa [hgiven] using mem_newNumbers_iff [] 1 hused wf.nodup_drawings he
      isLeast := hleast
      pairwise_lt := pairwise_lt_of_isLeast hleast
      lt_bound := hlt
      eq_map := hmap
      drawings_eq := by
        rw [hmap] at wf' ⊢
        exact wf.drawings_numbered wf' hsublist.subset hlt
      nodup := by
        by_cases hroot : root ∈ d.ids
        · exact wf'.distinctDrawings_iff.mp (renumberDrawings_distinct wf hroot)
        · have hnone : d.drawings root = [] := by
            rw [drawings, nodesBelow, wf.treeAt_eq_nil hroot]
            rfl
          rw [renumberDrawings, hnone, List.map_nil, renumber, hnone]
          exact List.nodup_nil }

/-- A drawing with a number, as it is written. -/
def drawingLabel (number : String) : Label :=
  .element ⟨Word.drawing, [("id", number)]⟩

/-- Five drawings, of which three have the number 2 and one has none. -/
def repeatedDrawings : Document :=
  ofTree ⟨"w:body", []⟩ <| ofTrees <|
    ["2", "02", "1", "x", "+2"].map fun number => (drawingLabel number, .nil)

/-- Two of the drawings get numbers. -/
theorem renumberDrawings_givesNumbers_repeated :
    repeatedDrawings.WellFormed ∧
      ((repeatedDrawings.nodesBelow ⟨0⟩).filter (·.label.isNamed Word.drawing)).length < 2 ^ 32 - 1 ∧
      ∃ given, GivesNumbers repeatedDrawings (repeatedDrawings.renumberDrawings ⟨0⟩) ⟨0⟩ given :=
  have wf : repeatedDrawings.WellFormed := wellFormed_ofTree ..
  have hcount : ((repeatedDrawings.nodesBelow ⟨0⟩).filter (·.label.isNamed Word.drawing)).length < 2 ^ 32 - 1 := by
    decide +kernel
  ⟨wf, hcount, renumberDrawings_givesNumbers wf hcount⟩

-- The number 1 is in use, although only further behind.
example : (repeatedDrawings.renumberDrawings ⟨0⟩).drawings ⟨0⟩ =
    [(⟨1⟩, 2), (⟨2⟩, 3), (⟨3⟩, 1), (⟨5⟩, 4)] := by
  decide +kernel

end Document

end Xml

end WordTemplate
