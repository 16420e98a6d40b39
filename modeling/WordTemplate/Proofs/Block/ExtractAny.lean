import WordTemplate.Proofs.Block.Extraction
import WordTemplate.Proofs.Word.Detachment

/-!
# Taking out contents anywhere

Where blocks lie across each other, the content of one may hold the bounds of another. When it is
taken out, these go with it, and the content of the other is taken out of it later. In any case the
nodes of the scope are distributed over the tree at the root and the contents: `Parts`.

* `Parts.detachAll`: taking out siblings.
* `exists_extractsAny`: taking out all contents.
* `Parts.stored`: the contents are stored as they are needed for expansion.
-/

namespace WordTemplate

open Xml Forest

variable {d : Document} {root n m a : NodeId} {mute : List String} {N : List Node} {M : List NodeId}

/-! ## A part of a tree -/

theorem sound_part {up : List (Frame Node)} {l as r : Forest Node} {node : Node}
    (hs : Sound mute (labels (wrap up (l ++ cons node as r)))) :
    Sound mute (labels (tree node as)) := by
  have hin := hs.of_wrap
  rw [labels_append, labels_cons, sound_append, sound_cons] at hin
  exact hin.2.1

/-- The scope itself is not at a spot below it. -/
theorem scope_not_mem_spot {fr : Frame Node} {up : List (Frame Node)} {X : Forest Node}
    (wf : d.WellFormed) (hm : m ∈ d.ids) (h : d.treeAt m = wrap (fr :: up) X) : m ∉ Xml.ids X := by
  obtain ⟨node, cs, rfl, hnode⟩ := wf.exists_treeAt hm
  obtain ⟨outer, hup⟩ := exists_outermost (h.symm.trans hnode)
  have hnd := wf.nodup_treeAt node.id
  rw [h, hup, ids_wrap, opening_append] at hnd
  simp only [opening, toList, List.nil_append, List.map_append, List.map_cons, List.map_nil,
    List.nodup_append, List.mem_append, List.append_assoc, List.mem_singleton] at hnd
  exact fun hin => hnd.2.2 node.id rfl node.id (.inr (.inl hin)) rfl

/-- What is between two nodes is below the node that the first of them is below. -/
theorem between_below {first : NodeId} (last : NodeId) (wf : d.WellFormed)
    (hfirst : first ∈ Xml.ids (d.treeAt m)) (hne : first ≠ m) :
    (d.between first last).Nodup ∧
      ∀ n ∈ d.between first last, n ∈ Xml.ids (d.treeAt m) ∧ n ≠ m := by
  obtain ⟨fr, up, l, a, as, r, rfl, ht⟩ := exists_spot_below wf hfirst hne
  obtain ⟨fr', up', htrees, -, -⟩ := wf.exists_spot_of_treeAt ht
  have hsiblings := Document.siblings_eq wf htrees
  have hin : (Xml.ids (l ++ cons a as r)).Sublist (Xml.ids (d.treeAt m)) := by
    rw [ht, ids_wrap]
    exact (List.sublist_append_left ..).trans (List.sublist_append_right ..)
  refine ⟨?_, fun n hn => ?_⟩
  · rw [Document.between]
    split
    · split
      · refine List.Sublist.nodup ((List.drop_sublist ..).trans (List.take_sublist ..)) ?_
        rw [hsiblings]
        exact ((wf.nodup_treeAt m).sublist hin).sublist (roots_ids_sublist _)
      · exact List.nodup_nil
    · exact List.nodup_nil
  · have hn := Document.mem_siblings_of_mem_between hn
    rw [hsiblings] at hn
    have hmem := (roots_ids_sublist _).subset hn
    exact ⟨hin.subset hmem, fun he => scope_not_mem_spot wf (wf.root_not_mem ht).1 ht (he ▸ hmem)⟩

theorem not_mem_ids_prune {f : Forest Node} (hnd : (Xml.ids f).Nodup) :
    n ∉ Xml.ids (f.prune (·.id == n)) := by
  by_cases hn : n ∈ Xml.ids f
  · obtain ⟨up, l, node, cs, r, rfl, rfl⟩ := exists_spot hn
    rw [prune_spot hnd rfl]
    have hperm : (Xml.ids (wrap up (l ++ cons node cs r))).Perm
        (node.id :: (Xml.ids cs ++ Xml.ids (wrap up (l ++ r)))) := by
      simp only [ids_wrap, ids_append, ids_cons]
      grind
    have := (List.nodup_cons.mp (hperm.nodup_iff.mp hnd)).1
    exact fun h => this (List.mem_append_right _ h)
  · rwa [prune_eq_self_of_not_mem hn]

theorem mem_ids_of_detach (wf : d.WellFormed) (h : n ∈ Xml.ids ((d.detach a).treeAt m)) :
    n ∈ Xml.ids (d.treeAt m) := by
  rw [wf.treeAt_detach] at h
  split at h
  · next hm => rwa [hm]
  · rcases Document.mem_ids_replace h with h | ⟨_, _, _, h⟩
    · exact h
    · simp at h

/-! ## Distributing the nodes of a scope -/

/-- The nodes at and below those of a list. -/
def nodesAt (d : Document) (ns : List NodeId) : List Node :=
  ns.flatMap fun n => (d.treeAt n).toList

@[simp] theorem nodesAt_cons (d : Document) (n : NodeId) (ns : List NodeId) :
    nodesAt d (n :: ns) = (d.treeAt n).toList ++ nodesAt d ns := rfl

@[simp] theorem nodesAt_append (d : Document) (ns ns' : List NodeId) :
    nodesAt d (ns ++ ns') = nodesAt d ns ++ nodesAt d ns' :=
  List.flatMap_append

theorem toList_treesAt (d : Document) (ns : List NodeId) :
    (d.treesAt ns).toList = nodesAt d ns := by
  induction ns with
  | nil => rfl
  | cons n ns ih =>
    rw [Document.treesAt, List.foldr_cons, toList_append, nodesAt_cons, ← ih]
    rfl

/-- Whether the nodes `N` are distributed over the trees at `root` and at `M`, which have no parents
and are sound. -/
structure Parts (mute : List String) (N : List Node) (d : Document) (root : NodeId)
    (M : List NodeId) : Prop where
  wellFormed : d.WellFormed
  perm : (nodesAt d (root :: M)).Perm N
  nodup : (N.map Node.id).Nodup
  mem_ids : ∀ m ∈ root :: M, m ∈ d.ids
  parent?_eq : ∀ m ∈ M, d.parent? m = none
  sound : ∀ m ∈ root :: M, Sound mute (labels (d.treeAt m))

namespace Parts

theorem nodup_ids (h : Parts mute N d root M) : ((nodesAt d (root :: M)).map Node.id).Nodup :=
  (h.perm.map Node.id).nodup_iff.mpr h.nodup

theorem of_perm {M' : List NodeId} (h : Parts mute N d root M) (hM : M'.Perm M) :
    Parts mute N d root M' where
  wellFormed := h.wellFormed
  perm := by
    refine List.Perm.trans ?_ h.perm
    exact (hM.cons root).flatMap_right _
  nodup := h.nodup
  mem_ids m hm := h.mem_ids m ((hM.cons root).mem_iff.mp hm)
  parent?_eq m hm := h.parent?_eq m (hM.mem_iff.mp hm)
  sound m hm := h.sound m ((hM.cons root).mem_iff.mp hm)

/-- Each of the nodes is in one of the trees and in no other. -/
theorem exists_tree (h : Parts mute N d root M) (hn : n ∈ N.map Node.id) :
    ∃ X m Y, root :: M = X ++ m :: Y ∧ n ∈ Xml.ids (d.treeAt m) ∧
      ∀ k ∈ X ++ Y, n ∉ Xml.ids (d.treeAt k) := by
  obtain ⟨node, hnode, rfl⟩ := List.mem_map.mp ((h.perm.map Node.id).mem_iff.mpr hn)
  obtain ⟨m, hm, hnode⟩ := List.mem_flatMap.mp hnode
  have hin : node.id ∈ Xml.ids (d.treeAt m) := List.mem_map_of_mem hnode
  obtain ⟨X, Y, hXY⟩ := List.append_of_mem hm
  refine ⟨X, m, Y, hXY, hin, fun k hk hk' => ?_⟩
  have hnd := h.nodup_ids
  rw [hXY, nodesAt_append, nodesAt_cons] at hnd
  have hother : node.id ∈ (nodesAt d (X ++ Y)).map Node.id := by
    obtain ⟨node', hnode', he⟩ := List.mem_map.mp hk'
    exact he ▸ List.mem_map_of_mem (List.mem_flatMap.mpr ⟨k, hk, hnode'⟩)
  simp only [nodesAt_append, List.map_append, List.mem_append, List.nodup_append] at hnd hother
  rcases hother with ho | ho
  · exact hnd.2.2 _ ho _ (.inl hin) rfl
  · exact hnd.2.1.2.2 _ hin _ ho rfl

/-- Two of the trees that have a node in common are the same. -/
theorem unique {k : NodeId} (h : Parts mute N d root M) (hm : m ∈ root :: M) (hk : k ∈ root :: M)
    (hn : n ∈ Xml.ids (d.treeAt m)) (hn' : n ∈ Xml.ids (d.treeAt k)) : m = k := by
  have hN : n ∈ N.map Node.id := by
    rw [← (h.perm.map Node.id).mem_iff]
    obtain ⟨node, hnode, he⟩ := List.mem_map.mp hn
    exact he ▸ List.mem_map_of_mem (List.mem_flatMap.mpr ⟨m, hm, hnode⟩)
  obtain ⟨X, j, Y, hXY, -, hall⟩ := h.exists_tree hN
  have key : ∀ i ∈ root :: M, n ∈ Xml.ids (d.treeAt i) → i = j := fun i hi hin => by
    by_contra hne
    refine hall i ?_ hin
    rw [hXY, List.mem_append, List.mem_cons] at hi
    rw [List.mem_append]
    tauto
  exact (key m hm hn).trans (key k hk hn').symm

theorem mem_self (h : Parts mute N d root M) (hm : m ∈ root :: M) : m ∈ Xml.ids (d.treeAt m) := by
  obtain ⟨node, cs, rfl, htree⟩ := h.wellFormed.exists_treeAt (h.mem_ids m hm)
  rw [htree]
  simp

/-- Taking out one of the nodes gives it a tree of its own. -/
theorem detach (h : Parts mute N d root M) (ha : a ∈ N.map Node.id) (hr : a ≠ root) (hM : a ∉ M) :
    Parts mute N (d.detach a) root (a :: M) := by
  have wf := h.wellFormed
  have wf' := (wf.grows_detach a).wellFormed
  obtain ⟨X, m, Y, hXY, hin, hall⟩ := h.exists_tree ha
  have hm : m ∈ root :: M := by simp [hXY]
  have hne : a ≠ m := by
    rintro rfl
    rcases List.mem_cons.mp hm with rfl | hm
    · exact hr rfl
    · exact hM hm
  obtain ⟨fr, up, l, node, cs, r, rfl, ht⟩ := exists_spot_below wf hin hne
  have hself : (d.detach node.id).treeAt node.id = tree node cs := by
    rw [wf.treeAt_detach, if_pos rfl, wf.treeAt_of_spot ht]
  have hkeep : ∀ k ∈ X ++ Y, (d.detach node.id).treeAt k = d.treeAt k :=
    fun k hk => treeAt_detach_of_not_mem wf (hall k hk)
  refine ⟨wf', ?_, h.nodup, fun k hk => ?_, fun k hk => ?_, fun k hk => ?_⟩
  · refine List.Perm.trans ?_ h.perm
    -- The nodes of one tree are shared out, and the other trees stay.
    have hone : ((tree node cs).toList ++ ((d.detach node.id).treeAt m).toList).Perm
        (d.treeAt m).toList := by
      rw [Document.treeAt_detach_spot wf ht, ht]
      simp only [toList_wrap, toList_append, toList, tree, List.append_nil]
      grind
    have hothers : ∀ Z, (∀ k ∈ Z, k ∈ X ++ Y) → nodesAt (d.detach node.id) Z = nodesAt d Z :=
      fun Z hZ => List.flatMap_congr fun k hk => by rw [hkeep k (hZ k hk)]
    have hX := hothers X fun k hk => List.mem_append_left _ hk
    have hY := hothers Y fun k hk => List.mem_append_right _ hk
    have hswap : (nodesAt (d.detach node.id) (root :: node.id :: M)).Perm
        (nodesAt (d.detach node.id) (node.id :: root :: M)) :=
      (List.Perm.swap _ _ _).flatMap_right _
    refine hswap.trans ?_
    rw [nodesAt_cons, hself, hXY]
    simp only [nodesAt_append, nodesAt_cons, hX, hY]
    grind
  · have : k ∈ root :: M ∨ k = node.id := by
      simp only [List.mem_cons] at hk ⊢
      tauto
    rcases this with hk | rfl
    · exact (wf.grows_detach _).mem_ids k (h.mem_ids k hk)
    · exact (wf.grows_detach _).mem_ids _ (wf.mem_ids_of_mem_treeAt hin)
  · rcases List.mem_cons.mp hk with rfl | hk
    · rw [Document.parent?_eq_none_iff wf']
      intro j hj
      rw [wf.treeAt_detach, if_neg hj]
      exact not_mem_ids_prune (wf.nodup_treeAt j)
    · exact Document.parent?_eq_none_of_subset wf wf' (h.parent?_eq k hk)
        fun _ _ hj => mem_ids_of_detach wf hj
  · have : k ∈ root :: M ∨ k = node.id := by
      simp only [List.mem_cons] at hk ⊢
      tauto
    rcases this with hk | rfl
    · exact (Thins.detach wf node.id).thinner.sound (h.sound k hk)
    · rw [hself]
      have hs := h.sound m hm
      rw [ht] at hs
      exact sound_part hs

/-- Taking out some of the nodes. -/
theorem detachAll {ns : List NodeId} (h : Parts mute N d root M) (hns : ns.Nodup)
    (hall : ∀ n ∈ ns, n ∈ N.map Node.id ∧ n ≠ root ∧ n ∉ M) :
    Parts mute N (d.detachAll ns) root (ns ++ M) := by
  induction ns generalizing d M with
  | nil => exact h
  | cons a ns ih =>
    rw [List.nodup_cons] at hns
    obtain ⟨ha, hr, hM⟩ := hall a (List.mem_cons_self ..)
    refine (ih (d := d.detach a) (h.detach ha hr hM) hns.2 fun n hn => ?_).of_perm
      List.perm_middle.symm
    obtain ⟨hN, hr', hM'⟩ := hall n (List.mem_cons_of_mem a hn)
    refine ⟨hN, hr', ?_⟩
    rw [List.mem_cons, not_or]
    exact ⟨fun he => hns.1 (he ▸ hn), hM'⟩

/-- What is between the bounds of a block are some of the nodes, none of which has a tree of its
own. -/
theorem between {first : NodeId} (last : NodeId) (h : Parts mute N d root M) (hfirst : first ∈ N.map Node.id)
    (hr : first ≠ root) : (d.between first last).Nodup ∧
      ∀ n ∈ d.between first last, n ∈ N.map Node.id ∧ n ≠ root ∧ n ∉ M := by
  obtain ⟨X, m, Y, hXY, hin, -⟩ := h.exists_tree hfirst
  have hm : m ∈ root :: M := by simp [hXY]
  by_cases hne : first = m
  · -- The root of one of the trees has no siblings.
    have hM : first ∈ M := by
      rw [← hne, List.mem_cons] at hm
      exact hm.resolve_left hr
    simp [Document.between, Document.index?, Document.siblings, h.parent?_eq first hM]
  · obtain ⟨hnd, hall⟩ := between_below last h.wellFormed hin hne
    refine ⟨hnd, fun n hn => ?_⟩
    obtain ⟨hmem, hnm⟩ := hall n hn
    have hnot : n ∉ root :: M := fun hroot => hnm (h.unique hroot hm (h.mem_self hroot) hmem)
    rw [List.mem_cons, not_or] at hnot
    refine ⟨?_, hnot⟩
    rw [← (h.perm.map Node.id).mem_iff]
    obtain ⟨node, hnode, he⟩ := List.mem_map.mp hmem
    exact he ▸ List.mem_map_of_mem (List.mem_flatMap.mpr ⟨m, hm, hnode⟩)

end Parts

/-! ## Taking out all contents -/

/-- The contents of blocks, one after another. -/
def contentsOf (T : Forest Block.Template) : List NodeId :=
  T.toList.flatMap (·.content)

/-- What taking contents out does where blocks may lie across each other. -/
structure ExtractsAny (mute : List String) (N : List Node) (d d' : Document) (root : NodeId)
    (M : List NodeId) (B : Forest Block.Placed) (T : Forest Block.Template) : Prop where
  run : Block.extractAll B d = (T, d')
  grows : d.Grows d'
  label?_eq : d'.label? root = d.label? root
  parts : Parts mute N d' root (contentsOf T ++ M)
  numbers_eq : T.map (fun t => (t.number, t.block)) = B.map fun p => (p.number, p.block)

theorem thins_detachAll (wf : d.WellFormed) (ns : List NodeId) : Thins mute d (d.detachAll ns) root :=
  .foldl (fun _ n wf => .detach wf n) wf ns

/-- All contents can be taken out. -/
theorem exists_extractsAny {B : Forest Block.Placed} (h : Parts mute N d root M)
    (hB : ∀ p ∈ B.toList, p.first ∈ N.map Node.id ∧ p.first ≠ root) :
    ∃ T d', ExtractsAny mute N d d' root M B T := by
  induction B generalizing d M with
  | nil => exact ⟨nil, d, rfl, .refl h.wellFormed, rfl, h, rfl⟩
  | cons p BS B ihS ih =>
    simp only [toList, List.mem_cons, List.mem_append] at hB
    obtain ⟨TS, d₁, hin⟩ := ihS h fun p hp => hB p (.inr (.inl hp))
    obtain ⟨hfirst, hr⟩ := hB p (.inl rfl)
    obtain ⟨hnd, hbetween⟩ := hin.parts.between p.last hfirst hr
    have hthins : Thins mute d₁ (d₁.detachAll (d₁.between p.first p.last)) root :=
      thins_detachAll hin.parts.wellFormed _
    obtain ⟨T, d₂, hout⟩ := ih (hin.parts.detachAll hnd hbetween) fun p hp => hB p (.inr (.inr hp))
    refine ⟨_, d₂, extractAll_cons hin.run hout.run, (hin.grows.trans hthins.grows).trans hout.grows,
      hout.label?_eq.trans ((hthins.label?_eq root).trans hin.label?_eq), ?_, ?_⟩
    · refine hout.parts.of_perm ?_
      simp only [contentsOf, toList, List.flatMap_cons, List.flatMap_append, List.append_assoc]
      grind
    · simp only [Forest.map, hin.numbers_eq, hout.numbers_eq]

/-- The contents that were taken out are stored. -/
theorem Parts.stored {T : Forest Block.Template} (h : Parts mute N d root (contentsOf T)) :
    Stored d root mute T := by
  intro t ht
  have hmem : ∀ n ∈ t.content, n ∈ contentsOf T := fun n hn => List.mem_flatMap.mpr ⟨t, ht, hn⟩
  have hnd := h.nodup_ids
  rw [nodesAt_cons, List.map_append, List.nodup_append] at hnd
  refine ⟨fun n hn => ⟨h.mem_ids n (List.mem_cons_of_mem _ (hmem n hn)), fun i hi hroot => ?_⟩, ?_⟩
  · obtain ⟨node, hnode, rfl⟩ := List.mem_map.mp hi
    exact hnd.2.2 _ hroot _ (List.mem_map_of_mem (List.mem_flatMap.mpr ⟨n, hmem n hn, hnode⟩)) rfl
  · have hs := fun n hn => h.sound n (List.mem_cons_of_mem _ (hmem n hn))
    rw [Document.contentOf, Document.contentLabels]
    generalize t.content = ns at hs
    induction ns with
    | nil => exact sound_nil
    | cons n ns ih =>
      rw [Document.treesAt, List.foldr_cons, labels_append, sound_append]
      exact ⟨hs n (List.mem_cons_self ..), ih fun k hk => hs k (List.mem_cons_of_mem n hk)⟩

end WordTemplate
