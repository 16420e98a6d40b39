import Mathlib.Data.List.Nodup
import WordTemplate.Proofs.Block.ExtractAny
import WordTemplate.Proofs.Xml.Each
import WordTemplate.Proofs.Xml.Moves

/-!
# Putting contents back

Contents are taken out of inner blocks first, and put back into outer blocks first, each behind its anchor.
This gives back the document if every anchor is where the content around it was, and no content is taken
from where another one was: then it does not matter that blocks side by side are gone through in the same
order both times.

* `reinsertAll`: putting all contents back.
* `restoreAll_cuts`: what this does to the children of every node, if the blocks are `Laminar`.
* `Restored.reinsertAll`: all anchors are found on the way, if they are `Chained`.
-/

namespace WordTemplate

open Xml Forest

namespace Block

/-- Puts the content of a block back behind its anchor, which is looked up at `scope` or below it. -/
def reinsert (scope : NodeId) (d : Document) (t : Template) : Option Document :=
  (t.anchor.resolve? d scope).map fun anchor => (d.insertAllAfter anchor t.content).2

/-- Puts all contents back, that of a block before those of the blocks within it. -/
def reinsertAll (scope : NodeId) (T : Forest Template) (d : Document) : Option Document :=
  T.toList.foldlM (reinsert scope) d

/-! ## What is taken out -/

/-- A block with the node behind which its content was. -/
structure Cut where
  anchor : NodeId
  template : Template

def Cut.content (c : Cut) : List NodeId :=
  c.template.content

/-- The blocks whose contents are taken out. -/
def cuts : Forest Placed → Document → Forest Cut
  | .nil, _ => .nil
  | .cons p inner rest, d =>
    let d₁ := (extractAll inner d).2
    let content := d₁.between p.first p.last
    .cons ⟨p.first, p.number, p.block, content⟩ (cuts inner d) (cuts rest (d₁.detachAll content))

variable {B : Forest Placed} {d e : Document} {n : NodeId} {l : List NodeId} {X Y : List Cut}
  {K : Forest Cut}

theorem extractAll_cons_eq (p : Placed) (inner rest : Forest Placed) (d : Document) :
    extractAll (cons p inner rest) d =
      let d₁ := (extractAll inner d).2
      let content := d₁.between p.first p.last
      (cons ⟨p.number, p.block, content⟩ (extractAll inner d).1
        (extractAll rest (d₁.detachAll content)).1, (extractAll rest (d₁.detachAll content)).2) :=
  extractAll_cons rfl rfl

theorem map_template_cuts (B : Forest Placed) (d : Document) :
    (cuts B d).map Cut.template = (extractAll B d).1 := by
  induction B generalizing d with
  | nil => rfl
  | cons p inner rest ihi ihr =>
    rw [extractAll_cons_eq, cuts, Forest.map, ihi, ihr]

theorem map_placed_cuts (B : Forest Placed) (d : Document) :
    (cuts B d).map (fun c => (c.anchor, c.template.number, c.template.block)) =
      B.map fun p => (p.first, p.number, p.block) := by
  induction B generalizing d with
  | nil => rfl
  | cons p inner rest ihi ihr => rw [cuts, Forest.map, Forest.map, ihi, ihr]

theorem contentsOf_map_template (K : Forest Cut) :
    contentsOf (K.map Cut.template) = K.toList.flatMap Cut.content := by
  rw [contentsOf, toList_map, List.flatMap_map]
  rfl

theorem moves_extractAll (wf : d.WellFormed) (B : Forest Placed) : d.Moves (extractAll B d).2 := by
  induction B generalizing d with
  | nil => exact .refl wf
  | cons p inner rest ihi ihr =>
    rw [extractAll_cons_eq]
    have hinner := ihi wf
    have hcontent := hinner.trans (hinner.grows.wellFormed.moves_detachAll
      ((extractAll inner d).2.between p.first p.last))
    exact hcontent.trans (ihr hcontent.grows.wellFormed)

/-- What is taken out is at the top from then on. -/
theorem exists_tops_extractAll (wf : d.WellFormed) (B : Forest Placed) :
    ∃ l, (extractAll B d).2.tops = l ++ d.tops ∧ ∀ i ∈ l, i ∈ contentsOf (extractAll B d).1 := by
  induction B generalizing d with
  | nil => exact ⟨[], rfl, by simp⟩
  | cons p inner rest ihi ihr =>
    rw [extractAll_cons_eq]
    have hinner := (moves_extractAll wf inner).grows.wellFormed
    obtain ⟨l₁, h₁, hmem₁⟩ := ihi wf
    obtain ⟨l₂, h₂, hmem₂⟩ := hinner.exists_tops_detachAll
      ((extractAll inner d).2.between p.first p.last)
    obtain ⟨l₃, h₃, hmem₃⟩ := ihr (hinner.moves_detachAll
      ((extractAll inner d).2.between p.first p.last)).grows.wellFormed
    refine ⟨l₃ ++ (l₂ ++ l₁), ?_, fun i hi => ?_⟩
    · dsimp only
      rw [h₃, h₂, h₁, List.append_assoc, List.append_assoc]
    · simp only [contentsOf, toList, List.flatMap_cons, List.flatMap_append, List.mem_append] at hi ⊢
      rcases hi with hi | hi | hi
      · exact .inr (.inr (hmem₃ i hi))
      · exact .inl (hmem₂ i hi)
      · exact .inr (.inl (hmem₁ i hi))

/-! ## Lists of children -/

/-- Puts what was taken out back into a list of children. -/
def restoreAll (K : List Cut) (l : List NodeId) : List NodeId :=
  K.foldl (fun l c => putAfter c.anchor c.content l) l

theorem restoreAll_append (X Y : List Cut) (l : List NodeId) :
    restoreAll (X ++ Y) l = restoreAll Y (restoreAll X l) :=
  List.foldl_append

theorem subset_restoreAll (X : List Cut) (l : List NodeId) : l ⊆ restoreAll X l := by
  induction X generalizing l with
  | nil => exact fun _ h => h
  | cons c X ih => exact fun i hi => ih _ (mem_putAfter.mpr (.inl hi))

theorem restoreAll_of_not_mem (h : ∀ c ∈ X, c.anchor ∉ l) : restoreAll X l = l := by
  induction X with
  | nil => rfl
  | cons c X ih =>
    show restoreAll X (putAfter c.anchor c.content l) = l
    rw [putAfter_of_not_mem (h c (List.mem_cons_self ..))]
    exact ih fun c' hc' => h c' (List.mem_cons_of_mem c hc')

/-- What comes into a list of children is put behind an anchor in it. -/
theorem mem_restoreAll {m : NodeId} (h : m ∈ restoreAll X l) :
    m ∈ l ∨ ∃ c ∈ X, c.anchor ∈ restoreAll X l ∧ m ∈ c.content := by
  induction X generalizing l with
  | nil => exact .inl h
  | cons c X ih =>
    rcases ih h with h | ⟨c', hc', ha, hm⟩
    · rcases mem_putAfter.mp h with h | ⟨ha, hm⟩
      · exact .inl h
      · exact .inr ⟨c, List.mem_cons_self .., subset_restoreAll _ _ ha, hm⟩
    · exact .inr ⟨c', List.mem_cons_of_mem c hc', ha, hm⟩

/-- Whether it does not matter which of two contents is put back first. -/
structure Cut.Separate (c c' : Cut) : Prop where
  ne : c.anchor ≠ c'.anchor
  not_mem : c.anchor ∉ c'.content
  not_mem' : c'.anchor ∉ c.content

theorem restoreAll_comm (h : ∀ x ∈ X, ∀ y ∈ Y, x.Separate y) (l : List NodeId) :
    restoreAll Y (restoreAll X l) = restoreAll X (restoreAll Y l) := by
  have hone : ∀ (c : Cut) l, (∀ y ∈ Y, c.Separate y) →
      restoreAll Y (restoreAll [c] l) = restoreAll [c] (restoreAll Y l) := by
    intro c l hc
    clear h
    induction Y generalizing l with
    | nil => rfl
    | cons y Y ih =>
      obtain ⟨hne, hnot, hnot'⟩ := hc y (List.mem_cons_self ..)
      show restoreAll Y (putAfter _ _ (putAfter _ _ l)) = _
      rw [← putAfter_comm hne hnot hnot']
      exact ih _ fun y' hy' => hc y' (List.mem_cons_of_mem y hy')
  induction X generalizing l with
  | nil => rfl
  | cons c X ih =>
    show restoreAll Y (restoreAll X (restoreAll [c] l)) = restoreAll X (restoreAll [c] (restoreAll Y l))
    rw [ih (fun x hx => h x (List.mem_cons_of_mem c hx)), hone c l (h c (List.mem_cons_self ..))]

/-- Whether nothing that is taken out within a block has to do with what is taken out behind it. -/
def Laminar : Forest Cut → Prop
  | .nil => True
  | .cons c inner rest =>
    (∀ x ∈ c :: inner.toList, ∀ y ∈ rest.toList, x.Separate y) ∧ Laminar inner ∧ Laminar rest

/-- Every node gets its children back. -/
theorem restoreAll_cuts (wf : d.WellFormed) (h : Laminar (cuts B d)) (n : NodeId) :
    restoreAll (cuts B d).toList ((extractAll B d).2.children n) = d.children n := by
  induction B generalizing d with
  | nil => rfl
  | cons p inner rest ihi ihr =>
    have hinner := (moves_extractAll wf inner).grows.wellFormed
    rw [cuts] at h ⊢
    obtain ⟨hseparate, hI, hR⟩ := h
    rw [extractAll_cons_eq]
    dsimp only
    generalize hcontent : (extractAll inner d).2.between p.first p.last = content at *
    have hrest := (hinner.moves_detachAll content).grows.wellFormed
    -- The contents behind the block are put back last, but they might be put back first.
    show restoreAll ((⟨p.first, p.number, p.block, content⟩ :: (cuts inner d).toList) ++ _) _ = _
    rw [restoreAll_append, restoreAll_comm hseparate, ihr hrest hR]
    show restoreAll (cuts inner d).toList (putAfter p.first content _) = _
    rw [← hcontent, hinner.putAfter_between, ihi wf hI]

/-! ## Where the anchors are -/

/-- Whether the anchors of the blocks at the top are in the trees at `ns`, and those of the blocks below a
block in its content. -/
def Housed (d : Document) : List NodeId → Forest Cut → Prop
  | _, .nil => True
  | ns, .cons c inner rest =>
    (∃ n ∈ ns, c.anchor ∈ Xml.ids (d.treeAt n)) ∧ Housed d c.content inner ∧ Housed d ns rest

/-- Whether the anchor of each block is in one of the trees at `ns` or in the content of a block in front
of it. -/
def Chained (d : Document) : List NodeId → List Cut → Prop
  | _, [] => True
  | ns, c :: K => (∃ n ∈ ns, c.anchor ∈ Xml.ids (d.treeAt n)) ∧ Chained d (ns ++ c.content) K

theorem Chained.append {ns : List NodeId} (hX : Chained d ns X)
    (hY : Chained d (ns ++ X.flatMap Cut.content) Y) : Chained d ns (X ++ Y) := by
  induction X generalizing ns with
  | nil => simpa using hY
  | cons c X ih =>
    refine ⟨hX.1, ih hX.2 ?_⟩
    rwa [List.append_assoc, ← List.flatMap_cons]

theorem Housed.chained {ns ns' : List NodeId} (h : Housed d ns K) (hns : ns ⊆ ns') :
    Chained d ns' K.toList := by
  induction K generalizing ns ns' with
  | nil => trivial
  | cons c inner rest ihi ihr =>
    obtain ⟨⟨n, hn, hmem⟩, hI, hR⟩ := h
    refine ⟨⟨n, hns hn, hmem⟩, (ihi hI ?_).append (ihr hR ?_)⟩
    · exact List.subset_append_right ..
    · intro i hi
      exact List.mem_append_left _ (List.mem_append_left _ (hns hi))

theorem Housed.exists_home {ns : List NodeId} (h : Housed d ns K) :
    ∀ c ∈ K.toList, ∃ n ∈ ns ++ K.toList.flatMap Cut.content, c.anchor ∈ Xml.ids (d.treeAt n) := by
  induction K generalizing ns with
  | nil => simp [toList]
  | cons c inner rest ihi ihr =>
    obtain ⟨⟨n, hn, hmem⟩, hI, hR⟩ := h
    intro x hx
    simp only [toList, List.mem_cons, List.mem_append, List.flatMap_cons, List.flatMap_append] at hx ⊢
    rcases hx with rfl | hx | hx
    · exact ⟨n, .inl hn, hmem⟩
    · obtain ⟨m, hm, hxm⟩ := ihi hI x hx
      rw [List.mem_append] at hm
      exact ⟨m, by tauto, hxm⟩
    · obtain ⟨m, hm, hxm⟩ := ihr hR x hx
      rw [List.mem_append] at hm
      exact ⟨m, by tauto, hxm⟩

/-- Whether the trees at some nodes have no node in common. -/
structure DisjointTrees (d : Document) (ns : List NodeId) : Prop where
  nodup : ns.Nodup
  mem_self : ∀ n ∈ ns, n ∈ Xml.ids (d.treeAt n)
  unique : ∀ n ∈ ns, ∀ m ∈ ns, ∀ i, i ∈ Xml.ids (d.treeAt n) → i ∈ Xml.ids (d.treeAt m) → n = m

theorem DisjointTrees.sublist {ns ns' : List NodeId} (h : DisjointTrees d ns) (hns : ns'.Sublist ns) :
    DisjointTrees d ns' :=
  ⟨h.nodup.sublist hns, fun n hn => h.mem_self n (hns.subset hn), fun n hn m hm i hi hi' =>
    h.unique n (hns.subset hn) m (hns.subset hm) i hi hi'⟩

theorem DisjointTrees.perm {ns ns' : List NodeId} (h : DisjointTrees d ns) (hns : ns'.Perm ns) :
    DisjointTrees d ns' :=
  ⟨hns.nodup_iff.mpr h.nodup, fun n hn => h.mem_self n (hns.subset hn), fun n hn m hm i hi hi' =>
    h.unique n (hns.subset hn) m (hns.subset hm) i hi hi'⟩

/-- A node in one of the trees is not at the top of another one. -/
theorem DisjointTrees.not_mem {ns ns' : List NodeId} {i : NodeId} (h : DisjointTrees d (ns ++ ns'))
    (hn : n ∈ ns) (hi : i ∈ Xml.ids (d.treeAt n)) : i ∉ ns' := by
  intro hi'
  have hright := List.mem_append_right ns hi'
  obtain rfl := h.unique n (List.mem_append_left ns' hn) i hright i hi (h.mem_self i hright)
  exact (List.nodup_append.mp h.nodup).2.2 n hn n hi' rfl

theorem DisjointTrees.of_parts {mute : List String} {N : List Node} {root : NodeId} {M : List NodeId}
    (h : Parts mute N d root M) : DisjointTrees d (root :: M) where
  nodup := by
    have hnd := h.nodup_ids
    rw [nodesAt, List.map_flatMap, List.nodup_flatMap] at hnd
    refine hnd.2.imp_of_mem fun {n m} hn _ hdis he => ?_
    subst he
    exact hdis (h.mem_self hn) (h.mem_self hn)
  mem_self _ hn := h.mem_self hn
  unique _ hn _ hm _ hi hi' := h.unique hn hm hi hi'

/-- In disjoint trees the anchors are apart from the contents that are not around them. -/
theorem Housed.laminar {ns : List NodeId} (h : Housed d ns K)
    (hdis : DisjointTrees d (ns ++ K.toList.flatMap Cut.content))
    (hanchors : (K.toList.map Cut.anchor).Nodup) : Laminar K := by
  induction K generalizing ns with
  | nil => trivial
  | cons c inner rest ihi ihr =>
    obtain ⟨hc, hI, hR⟩ := h
    have hfront : Housed d ns (cons c inner nil) := ⟨hc, hI, trivial⟩
    have hlist : (cons c inner rest).toList = (cons c inner nil).toList ++ rest.toList := by
      simp [toList]
    rw [hlist, List.flatMap_append] at hdis
    rw [hlist, List.map_append, List.nodup_append] at hanchors
    refine ⟨fun x hx y hy => ?_, ihi hI (hdis.sublist ?_) ?_, ihr hR (hdis.sublist ?_) hanchors.2.1⟩
    · have hx : x ∈ (cons c inner nil).toList := by simpa [toList] using hx
      obtain ⟨n, hn, hxn⟩ := hfront.exists_home x hx
      obtain ⟨m, hm, hym⟩ := hR.exists_home y hy
      refine ⟨hanchors.2.2 _ (List.mem_map_of_mem hx) _ (List.mem_map_of_mem hy), fun hmem => ?_,
        fun hmem => ?_⟩
      · refine (hdis.perm ?_).not_mem hn hxn (List.mem_flatMap.mpr ⟨y, hy, hmem⟩)
        rw [List.append_assoc]
      · refine (hdis.perm ?_).not_mem hm hym (List.mem_flatMap.mpr ⟨x, hx, hmem⟩)
        rw [List.append_assoc]
        exact List.perm_append_comm.append_left ns
    · rw [toList, List.flatMap_cons, toList, List.append_nil]
      exact (List.sublist_append_left ..).trans (List.sublist_append_right ns _)
    · rw [toList, toList, List.append_nil, List.map_cons, List.nodup_cons] at hanchors
      exact hanchors.1.2
    · exact (List.sublist_append_right ..).append_left ns

theorem children_extractAll_subset (wf : d.WellFormed) (B : Forest Placed) (n : NodeId) :
    (extractAll B d).2.children n ⊆ d.children n := by
  induction B generalizing d with
  | nil => exact fun _ h => h
  | cons p inner rest ihi ihr =>
    rw [extractAll_cons_eq]
    have hinner := (moves_extractAll wf inner).grows.wellFormed
    intro i hi
    have hi := ihr (hinner.moves_detachAll _).grows.wellFormed hi
    rw [hinner.children_detachAll] at hi
    exact ihi wf (List.mem_filter.mp hi).1

/-- What is taken out had a parent. -/
theorem parent?_of_mem_contentsOf (wf : d.WellFormed) (B : Forest Placed) :
    ∀ i ∈ contentsOf (extractAll B d).1, (d.parent? i).isSome := by
  have hparent : ∀ {d' : Document} {i p}, d'.WellFormed → i ∈ d'.children p → (d'.parent? i).isSome :=
    fun wf' hi => by rw [wf'.parent?_eq_some_iff.mpr hi]; rfl
  induction B generalizing d with
  | nil => simp [contentsOf, extractAll, toList]
  | cons p inner rest ihi ihr =>
    rw [extractAll_cons_eq]
    have hinner := (moves_extractAll wf inner).grows.wellFormed
    intro i hi
    simp only [contentsOf, toList, List.flatMap_cons, List.flatMap_append, List.mem_append] at hi
    rcases hi with hi | hi | hi
    · obtain ⟨q, l, r, hq⟩ := Document.exists_of_between (List.ne_nil_of_mem hi)
      exact hparent wf (children_extractAll_subset wf inner q (by simp [hq, hi]))
    · exact ihi wf i hi
    · have hrest := (hinner.moves_detachAll
        ((extractAll inner d).2.between p.first p.last)).grows.wellFormed
      obtain ⟨q, hq⟩ := Option.isSome_iff_exists.mp (ihr hrest i hi)
      rw [hrest.parent?_eq_some_iff, hinner.children_detachAll] at hq
      exact hparent wf (children_extractAll_subset wf inner q (List.mem_filter.mp hq).1)

/-! ## On the way back -/

theorem mem_contents_append {root n : NodeId} :
    n ∈ root :: (X ++ Y).flatMap Cut.content ↔
      n ∈ root :: X.flatMap Cut.content ∨ n ∈ Y.flatMap Cut.content := by
  rw [List.flatMap_append, ← List.cons_append, List.mem_append]

/-- Whether contents can be put back: they are trees of their own without parents, and the anchor of each
is the one node that carries its insertion point. -/
structure Restorable (d : Document) (root : NodeId) (K : List Cut) : Prop where
  wellFormed : d.WellFormed
  disjoint : DisjointTrees d (root :: K.flatMap Cut.content)
  parent?_eq : ∀ n ∈ K.flatMap Cut.content, d.parent? n = none
  isOn_iff : ∀ c ∈ K, ∀ node ∈ nodesAt d (root :: K.flatMap Cut.content),
    c.template.anchor.isOn node.label = true ↔ node.id = c.anchor
  ne_root : ∀ c ∈ K, c.anchor ≠ root

/-- What `e` is after the contents `done` have been put back into `d`. -/
structure Restored (d e : Document) (root : NodeId) (done : List Cut) : Prop where
  moves : d.Moves e
  children_eq : ∀ n, e.children n = restoreAll done (d.children n)
  tops_eq : e.tops = d.tops.filter (· ∉ done.flatMap Cut.content)
  covers : ∀ n ∈ root :: done.flatMap Cut.content, ∀ m ∈ Xml.ids (d.treeAt n),
    m ∈ Xml.ids (e.treeAt root)
  anchors : ∀ c ∈ done, ∃ n ∈ root :: done.flatMap Cut.content, c.anchor ∈ Xml.ids (d.treeAt n)

theorem Restored.refl (wf : d.WellFormed) (root : NodeId) : Restored d d root [] where
  moves := .refl wf
  children_eq _ := rfl
  tops_eq := by simp
  covers n hn m hm := by
    obtain rfl : n = root := by simpa using hn
    exact hm
  anchors := by simp

section Restored

variable {root m : NodeId} {done todo : List Cut} {c : Cut}

/-- What is in the scope came from it or from a content that was put back. -/
theorem Restored.exists_home (h : Restored d e root done) (hR : Restorable d root (done ++ todo))
    (hm : m ∈ Xml.ids (e.treeAt root)) :
    ∃ n ∈ root :: done.flatMap Cut.content, m ∈ Xml.ids (d.treeAt n) := by
  have hself : ∀ n ∈ root :: done.flatMap Cut.content, n ∈ Xml.ids (d.treeAt n) := fun n hn =>
    hR.disjoint.mem_self n (mem_contents_append.mpr (.inl hn))
  refine h.moves.grows.wellFormed.forall_mem_treeAt (P := fun m => ∃ n ∈ root :: done.flatMap Cut.content,
    m ∈ Xml.ids (d.treeAt n)) ?_ hm ⟨root, List.mem_cons_self .., hself root (List.mem_cons_self ..)⟩
  rintro p k hk ⟨n, hn, hp⟩
  rw [h.children_eq] at hk
  rcases mem_restoreAll hk with hk | ⟨c, hc, -, hk⟩
  · exact ⟨n, hn, hR.wellFormed.mem_treeAt_trans hp (hR.wellFormed.mem_treeAt_of_mem_children hk)⟩
  · have hk : k ∈ root :: done.flatMap Cut.content :=
      List.mem_cons_of_mem root (List.mem_flatMap.mpr ⟨c, hc, hk⟩)
    exact ⟨k, hk, hself k hk⟩

/-- The nodes of the scope have the labels that they had before. -/
theorem Restored.mem_nodesAt (h : Restored d e root done) (hR : Restorable d root (done ++ todo))
    {node : Node} (hnode : node ∈ (e.treeAt root).toList) :
    node ∈ nodesAt d (root :: (done ++ todo).flatMap Cut.content) := by
  obtain ⟨n, hn, hmem⟩ := h.exists_home hR (List.mem_map_of_mem (f := Node.id) hnode)
  obtain ⟨node', hnode', hid⟩ := List.mem_map.mp hmem
  have hlabel := hR.wellFormed.label?_of_mem_treeAt hnode'
  rw [hid, ← h.moves.label?_eq, h.moves.grows.wellFormed.label?_of_mem_treeAt hnode] at hlabel
  obtain rfl : node = node' := by
    cases node
    cases node'
    simp_all
  exact List.mem_flatMap.mpr ⟨n, mem_contents_append.mpr (.inl hn), hnode'⟩

/-- An anchor in the scope is found. -/
theorem Restored.resolve?_eq (h : Restored d e root done) (hR : Restorable d root (done ++ todo))
    (hc : c ∈ done ++ todo) (hin : c.anchor ∈ Xml.ids (e.treeAt root)) :
    c.template.anchor.resolve? e root = some c.anchor := by
  obtain ⟨node, hnode, hid⟩ := List.mem_map.mp hin
  have hon := (hR.isOn_iff c hc node (h.mem_nodesAt hR hnode)).mpr hid
  rw [InsertionPoint.resolve?]
  cases hfind : (e.treeAt root).toList.find? fun node => c.template.anchor.isOn node.label with
  | none => exact absurd hon (List.find?_eq_none.mp hfind node hnode)
  | some x =>
    have hx := h.mem_nodesAt hR (List.mem_of_find?_eq_some hfind)
    rw [Option.map_some, (hR.isOn_iff c hc x hx).mp (by simpa using List.find?_some hfind)]

/-- The contents that are still to be put back are as they were. -/
theorem Restored.treeAt_eq (h : Restored d e root done) (hR : Restorable d root (done ++ todo))
    (hm : m ∈ todo.flatMap Cut.content) : e.treeAt m = d.treeAt m := by
  have wf := hR.wellFormed
  have hnd := hR.disjoint.nodup
  rw [List.flatMap_append, ← List.cons_append, List.nodup_append] at hnd
  have hself := hR.disjoint.mem_self m (mem_contents_append.mpr (.inr hm))
  refine wf.treeAt_congr h.moves.grows.wellFormed (wf.mem_ids_of_mem_treeAt hself) fun k hk =>
    ⟨h.moves.label?_eq k, ?_⟩
  -- No content has been put behind one of its nodes.
  rw [h.children_eq, restoreAll_of_not_mem]
  intro c hc hck
  obtain ⟨n, hn, hcn⟩ := h.anchors c hc
  have hcm := wf.mem_treeAt_trans hk (wf.mem_treeAt_of_mem_children hck)
  exact hnd.2.2 n hn m hm (hR.disjoint.unique n (mem_contents_append.mpr (.inl hn)) m
    (mem_contents_append.mpr (.inr hm)) _ hcn hcm)

/-- One content is put back. -/
theorem Restored.exists_reinsert (h : Restored d e root done) (hR : Restorable d root (done ++ c :: todo))
    (hhome : ∃ n ∈ root :: done.flatMap Cut.content, c.anchor ∈ Xml.ids (d.treeAt n)) :
    ∃ e', reinsert root e c.template = some e' ∧ Restored d e' root (done ++ [c]) := by
  have wf := hR.wellFormed
  have wf₁ := h.moves.grows.wellFormed
  have hc : c ∈ done ++ c :: todo := by simp
  obtain ⟨home, hhome, hanchor⟩ := hhome
  have hin := h.covers home hhome c.anchor hanchor
  have hne := hR.ne_root c hc
  have hnd := hR.disjoint.nodup
  rw [List.flatMap_append, List.flatMap_cons, ← List.cons_append, List.nodup_append,
    List.nodup_append] at hnd
  obtain ⟨-, ⟨hcontent, -, -⟩, hfresh⟩ := hnd
  have hnew : ∀ k ∈ c.content, k ∉ root :: done.flatMap Cut.content := fun k hk hk' =>
    hfresh k hk' k (List.mem_append_left _ hk) rfl
  have htodo : ∀ k ∈ c.content, k ∈ (c :: todo).flatMap Cut.content := fun k hk =>
    List.mem_flatMap.mpr ⟨c, List.mem_cons_self .., hk⟩
  have hall : ∀ k ∈ c.content, k ∈ root :: (done ++ c :: todo).flatMap Cut.content := fun k hk =>
    mem_contents_append.mpr (.inr (htodo k hk))
  have hreceives : ∀ k ∈ c.content, e.Receives k c.anchor := by
    intro k hk
    have hself := hR.disjoint.mem_self k (hall k hk)
    refine ⟨h.moves.grows.mem_ids k (wf.mem_ids_of_mem_treeAt hself), ?_,
      wf₁.mem_ids_of_mem_treeAt hin, ?_⟩
    · refine Option.eq_none_iff_forall_ne_some.mpr fun p hp => ?_
      rw [wf₁.parent?_eq_some_iff, h.children_eq] at hp
      rcases mem_restoreAll hp with hp | ⟨c', hc', -, hk'⟩
      · have := hR.parent?_eq k (List.mem_flatMap.mpr ⟨c, hc, hk⟩)
        rw [wf.parent?_eq_some_iff.mpr hp] at this
        cases this
      · exact hnew k hk (List.mem_cons_of_mem root (List.mem_flatMap.mpr ⟨c', hc', hk'⟩))
    · rw [h.treeAt_eq hR (htodo k hk)]
      intro hmem
      have := hR.disjoint.unique home (mem_contents_append.mpr (.inl hhome)) k (hall k hk) _ hanchor hmem
      exact hnew k hk (this ▸ hhome)
  obtain ⟨hmoves, hchildren, htops⟩ := wf₁.insertAllAfter_moves (wf₁.parent?_isSome hin hne) hcontent
    hreceives
  have wf₂ := hmoves.grows.wellFormed
  have hroot : root ∈ e.ids := by
    by_contra hno
    rw [wf₁.treeAt_eq_nil hno] at hin
    cases hin
  have hmono : ∀ {m i}, m ∈ e.ids → i ∈ Xml.ids (e.treeAt m) →
      i ∈ Xml.ids ((e.insertAllAfter c.anchor c.content).2.treeAt m) := fun hm =>
    wf₁.mem_treeAt_mono wf₂ (fun p i hi => by rw [hchildren]; exact mem_putAfter.mpr (.inl hi))
      (hmoves.grows.mem_ids _ hm)
  refine ⟨_, by rw [reinsert, h.resolve?_eq hR hc hin]; rfl, h.moves.trans hmoves, fun n => ?_, ?_,
    fun n hn m hm => ?_, fun c' hc' => ?_⟩
  · exact (hchildren n).trans (by rw [h.children_eq, restoreAll_append]; rfl)
  · refine htops.trans ?_
    rw [h.tops_eq, List.filter_filter]
    refine List.filter_congr fun i _ => ?_
    rw [Bool.eq_iff_iff]
    simp
    tauto
  · rcases mem_contents_append.mp hn with hn | hn
    · exact hmono hroot (h.covers n hn m hm)
    · -- The content is in the tree of the node that the anchor is below.
      have hnc : n ∈ c.content := by simpa using hn
      obtain ⟨A, as, rfl, htree⟩ := wf₁.exists_treeAt hroot
      have has : c.anchor ∈ Xml.ids as := by simpa [htree, hne] using hin
      obtain ⟨q, hq, hparent⟩ := wf₁.exists_parent htree has
      refine wf₂.mem_treeAt_trans (wf₂.mem_treeAt_trans (hmono hroot hq)
        (wf₂.mem_treeAt_of_mem_children (p := q) (n := n) ?_)) (hmono (hreceives n hnc).mem_ids ?_)
      · rw [hchildren, mem_putAfter]
        exact .inr ⟨wf₁.parent?_eq_some_iff.mp hparent, hnc⟩
      · rwa [h.treeAt_eq hR (htodo n hnc)]
  · rcases List.mem_append.mp hc' with hc' | hc'
    · obtain ⟨n, hn, hmem⟩ := h.anchors c' hc'
      exact ⟨n, mem_contents_append.mpr (.inl hn), hmem⟩
    · obtain rfl : c' = c := by simpa using hc'
      exact ⟨home, mem_contents_append.mpr (.inl hhome), hanchor⟩

/-- All contents are put back. -/
theorem Restored.exists_reinsertAll (h : Restored d e root done)
    (hR : Restorable d root (done ++ todo))
    (hchain : Chained d (root :: done.flatMap Cut.content) todo) :
    ∃ e', (todo.map Cut.template).foldlM (reinsert root) e = some e' ∧
      Restored d e' root (done ++ todo) := by
  induction todo generalizing e done with
  | nil => exact ⟨e, rfl, by simpa using h⟩
  | cons c todo ih =>
    obtain ⟨e₁, hrun₁, h₁⟩ := h.exists_reinsert hR hchain.1
    obtain ⟨e₂, hrun₂, h₂⟩ := ih h₁ (by simpa using hR) (by simpa using hchain.2)
    exact ⟨e₂, by simp [hrun₁, hrun₂], by simpa using h₂⟩

end Restored

/-- Contents that were taken out are put back where they were. -/
theorem reinsertAll_extractAll {root : NodeId} (wf : d.WellFormed)
    (hR : Restorable (extractAll B d).2 root (cuts B d).toList) (hlaminar : Laminar (cuts B d))
    (hchain : Chained (extractAll B d).2 [root] (cuts B d).toList) :
    reinsertAll root (extractAll B d).1 (extractAll B d).2 = some d := by
  obtain ⟨e, hrun, he⟩ := (Restored.refl hR.wellFormed root).exists_reinsertAll hR hchain
  rw [List.nil_append] at he
  rw [reinsertAll, ← map_template_cuts, toList_map, hrun]
  congr 1
  refine ((moves_extractAll wf B).trans he.moves).eq wf (fun n => ?_) ?_
  · rw [he.children_eq, restoreAll_cuts wf hlaminar]
  · obtain ⟨l, hl, hmem⟩ := exists_tops_extractAll wf B
    rw [← map_template_cuts, contentsOf_map_template] at hmem
    rw [he.tops_eq, hl, List.filter_append, List.filter_eq_nil_iff.mpr (by simpa using hmem),
      List.nil_append, List.filter_eq_self]
    -- The nodes at the top had no parent, those that were taken out had one.
    intro i hi
    rw [decide_eq_true_eq, ← contentsOf_map_template, map_template_cuts]
    intro hmem
    have := parent?_of_mem_contentsOf wf B i hmem
    rw [wf.parent?_of_mem_tops hi] at this
    cases this

end Block

end WordTemplate
