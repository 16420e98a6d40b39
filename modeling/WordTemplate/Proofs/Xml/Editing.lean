import WordTemplate.Proofs.Xml.Children
import WordTemplate.Proofs.Xml.Division
import WordTemplate.Xml.Reading

/-!
# Editing documents

A document is made or read, and then edited in any way. As long as no node is put at or below itself,
its nodes are a forest: parents and children agree, and the way up from any node ends.

* `WellFormed.allots_append`, `WellFormed.allots_insertBeside`, `WellFormed.allots_divideAfter`,
  `WellFormed.allots_divideBefore`: the edits that move nodes.
* `Edit.allots_apply`: what every edit keeps.
* `Reachable.isForest`: every document that can be reached is a forest.
-/

namespace WordTemplate.Xml

open Forest

namespace Document

variable {d d' : Document} {n m target reference container place : NodeId}

/-! ## Nodes that are given out -/

/-- A step from `d` to `d'` that loses no node and gives every number up to the next one to a node. -/
structure Allots (d d' : Document) : Prop where
  grows : d.Grows d'
  mem_ids_of_lt : ∀ k, d.fresh ≤ k → k < d'.fresh → ⟨k⟩ ∈ d'.ids

theorem Grows.allots (h : d.Grows d') (hfresh : d'.fresh = d.fresh) : d.Allots d' :=
  ⟨h, fun k hle hlt => by omega⟩

theorem Allots.trans {d'' : Document} (h : d.Allots d') (h' : d'.Allots d'') : d.Allots d'' where
  grows := h.grows.trans h'.grows
  mem_ids_of_lt k hle hlt := by
    by_cases hk : k < d'.fresh
    · exact h'.grows.mem_ids _ (h.mem_ids_of_lt k hle hk)
    · exact h'.mem_ids_of_lt k (by omega) hlt

theorem WellFormed.allots_addCopies (wf : d.WellFormed) (copies : Forest Label) :
    d.Allots (d.addCopies copies) := by
  refine ⟨wf.grows_addCopies copies, fun k hle hlt => ?_⟩
  rw [fresh_addCopies] at hlt
  show _ ∈ Xml.ids (identify d.fresh copies ++ d.trees)
  rw [ids_append, ids_identify]
  exact List.mem_append_left _ (List.mem_map_of_mem (List.mem_range'_1.mpr ⟨hle, hlt⟩))

theorem WellFormed.allots_relabel (wf : d.WellFormed) (n : NodeId) (change : Label → Label) :
    d.Allots (d.relabel n change) :=
  (wf.grows_relabel n change).allots (wf.fresh_relabel n change)

theorem WellFormed.allots_detach (wf : d.WellFormed) (n : NodeId) : d.Allots (d.detach n) :=
  (wf.grows_detach n).allots (wf.fresh_detach n)

theorem WellFormed.allots_takeChildren (wf : d.WellFormed) (n : NodeId) : d.Allots (d.takeChildren n).2 :=
  (wf.grows_takeChildren n).allots (wf.fresh_takeChildren n)

/-! ## Moving nodes -/

/-- A node that is moved can be taken out before. -/
theorem WellFormed.moveTo_detach (wf : d.WellFormed) (n target : NodeId)
    (put : Forest Node → Node → Forest Node → Forest Node) :
    (d.detach n).moveTo n target put = d.moveTo n target put := by
  have hout : (d.detach n).detach n = d.detach n := by
    rw [(wf.grows_detach n).wellFormed.detach, wf.parent?_detach (.inl rfl)]
    rfl
  rw [moveTo, hout, moveTo]

/-- After a node has been taken out it can be put in anywhere but at or below itself. -/
theorem WellFormed.receives_detach (wf : d.WellFormed) (hn : n ∈ d.ids) (ht : target ∈ d.ids)
    (hnot : target ∉ Xml.ids (d.treeAt n)) : (d.detach n).Receives n target where
  mem_ids := (wf.grows_detach n).mem_ids n hn
  parent?_eq := wf.parent?_detach (.inl rfl)
  target_mem_ids := (wf.grows_detach n).mem_ids target ht
  target_not_mem := by rwa [wf.treeAt_detach, if_pos rfl]

theorem WellFormed.allots_append (wf : d.WellFormed) (hn : n ∈ d.ids) (ht : target ∈ d.ids)
    (hnot : target ∉ Xml.ids (d.treeAt n)) : d.Allots (d.append target n) := by
  have wf' := (wf.grows_detach n).wellFormed
  have hr := wf.receives_detach hn ht hnot
  have heq : d.append target n = (d.detach n).append target n := (wf.moveTo_detach ..).symm
  have hfresh : ((d.detach n).append target n).fresh = (d.detach n).fresh := by
    rw [wf'.append_eq hr]
    rfl
  rw [heq]
  exact (wf.allots_detach n).trans ((wf'.grows_append hr).allots hfresh)

/-- In the tree at `n`, only `n` can have a parent that is not in it. -/
theorem WellFormed.not_mem_treeAt_of_parent? (wf : d.WellFormed) (hp : d.parent? m = some place)
    (hne : m ≠ n) (hnot : place ∉ Xml.ids (d.treeAt n)) : m ∉ Xml.ids (d.treeAt n) := by
  intro hmem
  obtain ⟨node, cs, rfl, ht⟩ := wf.exists_treeAt (n := n) (by
    by_contra hn
    simp [wf.treeAt_eq_nil hn] at hmem)
  have hcs : m ∈ Xml.ids cs := by simpa [ht, hne] using hmem
  obtain ⟨q, hq, hqp⟩ := wf.exists_parent ht hcs
  exact hnot (Option.some.inj (hqp.symm.trans hp) ▸ hq)

/-- A node that is put beside another one can be taken out before. -/
theorem WellFormed.insertBeside_detach (wf : d.WellFormed) (hne : reference ≠ n)
    (put : Forest Node → Forest Node → Forest Node) (hp : (d.parent? reference).isSome) :
    (d.detach n).insertBeside put reference n = d.insertBeside put reference n := by
  obtain ⟨p, hp⟩ := Option.isSome_iff_exists.mp hp
  rw [insertBeside, wf.parent?_detach_of_ne hne, insertBeside, hp]
  simp only [hne, if_false, wf.moveTo_detach]

theorem WellFormed.allots_insertBeside {put : Forest Node → Forest Node → Forest Node}
    (wf : d.WellFormed) (hn : n ∈ d.ids) (hput : ∀ f g, (Xml.ids (put f g)).Perm (Xml.ids g ++ Xml.ids f))
    (hnot : ∀ p, d.parent? reference = some p → p ∉ Xml.ids (d.treeAt n)) :
    d.Allots (d.insertBeside put reference n) := by
  cases hp : d.parent? reference with
  | none =>
    rw [insertBeside, hp]
    exact (Grows.refl wf).allots rfl
  | some p =>
    by_cases hne : reference = n
    · rw [insertBeside, hp]
      simp only [hne, if_true]
      exact wf.allots_detach n
    have wf' := (wf.grows_detach n).wellFormed
    have hsome : (d.parent? reference).isSome := by rw [hp]; rfl
    have hr := wf.receives_detach hn (wf.mem_ids_of_parent? hsome)
      (wf.not_mem_treeAt_of_parent? hp hne (hnot p hp))
    have hsome' : ((d.detach n).parent? reference).isSome := by rwa [wf.parent?_detach_of_ne hne]
    have hfresh : ((d.detach n).insertBeside put reference n).fresh = (d.detach n).fresh := by
      rw [wf'.insertBeside_eq hr hsome']
      rfl
    rw [← wf.insertBeside_detach hne put hsome]
    exact (wf.allots_detach n).trans ((wf'.grows_insertBeside hr hsome' hput).allots hfresh)

/-- Writing into a node. -/
theorem WellFormed.allots_setText (wf : d.WellFormed) (hn : n ∈ d.ids) (content : String) :
    d.Allots (d.setText n content) := by
  unfold setText
  split
  · exact wf.allots_relabel n _
  · have htaken := wf.allots_takeChildren n
    dsimp only
    split
    · exact htaken
    · have wf₁ := htaken.grows.wellFormed
      have hmade := wf₁.allots_addCopies (.tree (.text content) .nil)
      have hr := wf₁.receives_copy (.text content) .nil (htaken.grows.mem_ids n hn)
      refine (htaken.trans hmade).trans ?_
      exact hmade.grows.wellFormed.allots_append hr.mem_ids hr.target_mem_ids hr.target_not_mem

/-! ## Dividing -/

/-- Putting the parts of a division in place. -/
theorem WellFormed.allots_settle {δ : Division} {a : Node} {as parts gone : Forest Node}
    (wf : d.WellFormed) (ht : d.treeAt container = tree a as)
    (hδ : Conserves (tree a as) d.fresh δ gone) (hparts : (Xml.ids parts).Perm (Xml.ids (δ.kept ++ gone))) :
    d.Allots (d.settle container δ parts) := by
  have hperm : (Xml.ids (parts ++ δ.dropped)).Perm
      (Xml.ids (tree a as) ++ (List.range' d.fresh (δ.fresh - d.fresh)).map NodeId.mk) := by
    refine List.Perm.trans ?_ hδ.perm
    rw [← append_assoc, ids_append, ids_append (δ.kept ++ gone)]
    exact hparts.append_right _
  obtain ⟨hgrows, -⟩ := wf.settle_spec ht hδ.fresh_le hperm
  refine ⟨hgrows, fun k hle hlt => wf.mem_ids_settle ht hgrows (hperm.mem_iff.mpr ?_)⟩
  change k < δ.fresh at hlt
  exact List.mem_append_right _ (List.mem_map_of_mem (List.mem_range'_1.mpr ⟨hle, by omega⟩))

theorem WellFormed.allots_divideAfter (wf : d.WellFormed) (container place : NodeId) :
    d.Allots (d.divideAfter container place).2 := by
  by_cases hc : container ∈ d.ids
  · obtain ⟨a, as, rfl, ht⟩ := wf.exists_treeAt hc
    obtain ⟨-, heq⟩ | ⟨δ, -, rfl, -, hmoved, heq⟩ := wf.divideAfter_cases ht place
    · rw [heq]
      exact (Grows.refl wf).allots rfl
    · have hδ := conserves_after place d.fresh (tree a as)
      rw [hmoved, append_nil] at hδ
      rw [heq]
      exact wf.allots_settle ht hδ (.refl _)
  · rw [divideAfter, if_neg fun h => hc (wf.mem_ids_of_isAncestor h.2)]
    exact (Grows.refl wf).allots rfl

theorem WellFormed.allots_divideBefore (wf : d.WellFormed) (container place : NodeId) :
    d.Allots (d.divideBefore container place).2 := by
  by_cases hc : container ∈ d.ids
  · obtain ⟨a, as, rfl, ht⟩ := wf.exists_treeAt hc
    obtain ⟨-, heq⟩ | ⟨δ, -, rfl, -, hmoved, heq⟩ := wf.divideBefore_cases ht place
    · rw [heq]
      exact (Grows.refl wf).allots rfl
    · have hδ := conserves_before place d.fresh (tree a as)
      rw [hmoved, nil_append] at hδ
      rw [heq]
      refine wf.allots_settle ht hδ ?_
      simp only [ids_append]
      exact List.perm_append_comm
  · rw [divideBefore, if_neg fun h => hc (wf.mem_ids_of_isAncestor h.2)]
    exact (Grows.refl wf).allots rfl

end Document

/-! ## Edits -/

/-- A call that changes a document. -/
inductive Edit where
  | createElement (name : String)
  | createText (content : String)
  | setText (n : NodeId) (content : String)
  | setAttribute (n : NodeId) (key value : String)
  | eraseAttribute (n : NodeId) (key : String)
  | detach (n : NodeId)
  | append (parent n : NodeId)
  | insertBefore (reference n : NodeId)
  | insertAfter (reference n : NodeId)
  | takeChildren (n : NodeId)
  | copy (n : NodeId)
  | divideAfter (container place : NodeId)
  | divideBefore (container place : NodeId)
  deriving DecidableEq, Repr

namespace Edit

/-- The document after the call. -/
def apply (d : Document) : Edit → Document
  | createElement name => (d.createElement name).2
  | createText content => (d.createText content).2
  | setText n content => d.setText n content
  | setAttribute n key value => d.setAttribute n key value
  | eraseAttribute n key => d.eraseAttribute n key
  | detach n => d.detach n
  | append parent n => d.append parent n
  | insertBefore reference n => d.insertBefore reference n
  | insertAfter reference n => d.insertAfter reference n
  | takeChildren n => (d.takeChildren n).2
  | copy n => (d.copy n).2
  | divideAfter container place => (d.divideAfter container place).2
  | divideBefore container place => (d.divideBefore container place).2

/-- The nodes that the call names. -/
def nodes : Edit → List NodeId
  | createElement _ | createText _ => []
  | setText n _ | setAttribute n _ _ | eraseAttribute n _ | detach n | takeChildren n | copy n => [n]
  | append parent n => [parent, n]
  | insertBefore reference n | insertAfter reference n => [reference, n]
  | divideAfter container place | divideBefore container place => [container, place]

/-- The node that the call puts in, and the node below which it comes. -/
def attachment? (d : Document) : Edit → Option (NodeId × NodeId)
  | append parent n => some (n, parent)
  | insertBefore reference n | insertAfter reference n => (d.parent? reference).map (n, ·)
  | _ => none

/-- Whether the call names nodes that there are, and puts none at or below itself. -/
structure Permitted (d : Document) (e : Edit) : Prop where
  lt_fresh : ∀ n ∈ e.nodes, n.number < d.fresh
  not_below : ∀ a ∈ e.attachment? d, a.2 ≠ a.1 ∧ d.isAncestor a.1 a.2 = false

instance (d : Document) (e : Edit) : Decidable (e.Permitted d) :=
  decidable_of_iff ((∀ n ∈ e.nodes, n.number < d.fresh) ∧
    ∀ a ∈ e.attachment? d, a.2 ≠ a.1 ∧ d.isAncestor a.1 a.2 = false)
    ⟨fun h => ⟨h.1, h.2⟩, fun h => ⟨h.lt_fresh, h.not_below⟩⟩

theorem Permitted.not_mem_treeAt {d : Document} {e : Edit} {n p : NodeId} (h : e.Permitted d) (wf : d.WellFormed)
    (ha : e.attachment? d = some (n, p)) : p ∉ Xml.ids (d.treeAt n) := by
  intro hmem
  obtain ⟨hne, hnot⟩ := h.not_below (n, p) ha
  rw [wf.isAncestor_of_mem hmem hne] at hnot
  cases hnot

/-- What a permitted call keeps. -/
theorem allots_apply {d : Document} {e : Edit} (wf : d.WellFormed)
    (hids : ∀ n : NodeId, n.number < d.fresh → n ∈ d.ids) (h : e.Permitted d) :
    d.Allots (e.apply d) := by
  have hnodes := fun n hn => hids n (h.lt_fresh n hn)
  have hout := fun n p ha => h.not_mem_treeAt wf (n := n) (p := p) ha
  cases e with
  | createElement name => exact wf.allots_addCopies _
  | createText content => exact wf.allots_addCopies _
  | setText n content => exact wf.allots_setText (hnodes n (by simp [nodes])) content
  | setAttribute n key value => exact wf.allots_relabel n _
  | eraseAttribute n key => exact wf.allots_relabel n _
  | detach n => exact wf.allots_detach n
  | append parent n =>
    exact wf.allots_append (hnodes n (by simp [nodes])) (hnodes parent (by simp [nodes]))
      (hout n parent rfl)
  | insertBefore reference n =>
    refine wf.allots_insertBeside (hnodes n (by simp [nodes])) (fun f g => ?_) fun p hp => hout n p ?_
    · rw [ids_append]
      exact List.perm_append_comm
    · rw [attachment?, hp]
      rfl
  | insertAfter reference n =>
    show d.Allots (d.insertBeside (fun moved sibling => sibling ++ moved) reference n)
    refine wf.allots_insertBeside (hnodes n (by simp [nodes])) (fun f g => ?_) fun p hp => hout n p ?_
    · rw [ids_append]
    · rw [attachment?, hp]
      rfl
  | takeChildren n => exact wf.allots_takeChildren n
  | copy n => exact wf.allots_addCopies _
  | divideAfter container place => exact wf.allots_divideAfter container place
  | divideBefore container place => exact wf.allots_divideBefore container place

end Edit

/-! ## Documents that can be reached -/

/-- The documents that come from a new one, or from one that was read, by permitted calls. A call that
names a node there is not has no outcome. -/
inductive Reachable : Document → Prop where
  | new (name : String) : Reachable (Document.ofRoot name)
  | read {markup : String} {d : Document} : readDocument markup = .ok d → Reachable d
  | edit {d : Document} {e : Edit} : Reachable d → e.Permitted d → Reachable (e.apply d)

namespace Document

variable {d : Document}

theorem WellFormed.ancestors_of_parent? {n p : NodeId} (wf : d.WellFormed) (h : d.parent? n = some p) :
    d.ancestors n = p :: d.ancestors p := by
  obtain ⟨up, l, node, cs, r, htrees, rfl⟩ := exists_spot (wf.mem_ids_of_parent? (by rw [h]; rfl))
  rw [parent?_eq wf htrees] at h
  cases up with
  | nil => cases h
  | cons fr up =>
    obtain rfl : fr.value.id = p := by simpa using h
    rw [Document.ancestors_eq wf htrees, Document.ancestors_eq wf (trees_eq_of_cons htrees)]
    rfl

theorem WellFormed.nodup_ancestors (wf : d.WellFormed) (n : NodeId) : (n :: d.ancestors n).Nodup := by
  by_cases hn : n ∈ d.ids
  · obtain ⟨up, l, node, cs, r, htrees, rfl⟩ := exists_spot hn
    have hnd := wf.ids_nodup
    rw [htrees, ids_wrap, ids_append, ids_cons] at hnd
    rw [Document.ancestors_eq wf htrees, List.nodup_cons]
    obtain ⟨habove, -, hbeside⟩ := List.nodup_append.mp hnd
    refine ⟨fun hmem => ?_, ?_⟩
    · obtain ⟨fr, hfr, hid⟩ := List.mem_map.mp hmem
      exact hbeside fr.value.id (List.mem_map_of_mem (value_mem_opening hfr)) node.id (by simp) hid
    · have hsub := (reverse_values_sublist_opening up).map Node.id
      rw [List.map_reverse, List.map_map] at hsub
      exact (List.reverse_perm _).nodup_iff.mp (hsub.nodup habove)
  · have hnone : d.ancestors n = [] := by
      rw [wf.ancestors, above?_eq_none (any_id_eq_false_iff.mpr hn)]
      rfl
    simp [hnone]

theorem mem_ids_ofTree {tag : Element} {children : Forest Label} {n : NodeId}
    (h : n.number < (ofTree tag children).fresh) : n ∈ (ofTree tag children).ids := by
  rw [ids_ofTree]
  exact List.mem_map_of_mem (List.mem_range'_1.mpr ⟨Nat.zero_le _, by simpa [ofTree] using h⟩)

/-- The nodes of a document that was read are numbered without gaps. -/
theorem wellFormed_of_readDocument {markup : String} (h : readDocument markup = .ok d) :
    d.WellFormed ∧ ∀ n : NodeId, n.number < d.fresh → n ∈ d.ids := by
  unfold readDocument at h
  generalize tokens (dropByteOrderMark markup.toList) = read at h
  cases hstate : applyTokens none read with
  | error e => simp [hstate, Except.bind] at h
  | ok state =>
    simp only [hstate, Except.bind] at h
    obtain _ | p := state
    · cases h
    cases h
    have wf := wellFormed_ofTree p.finish.tag p.finish.forest
    exact ⟨⟨wf.knots_eq, wf.nodup, wf.lt_fresh, wf.root_mem⟩, fun n hn => mem_ids_ofTree hn⟩

end Document

/-- What holds in every document that can be reached. -/
theorem Reachable.wellFormed {d : Document} (h : Reachable d) :
    d.WellFormed ∧ ∀ n : NodeId, n.number < d.fresh → n ∈ d.ids := by
  induction h with
  | new name => exact ⟨Document.wellFormed_ofTree _ _, fun n hn => Document.mem_ids_ofTree hn⟩
  | read h => exact Document.wellFormed_of_readDocument h
  | @edit d e _ hpermitted ih =>
    obtain ⟨wf, hids⟩ := ih
    have hstep := Edit.allots_apply wf hids hpermitted
    refine ⟨hstep.grows.wellFormed, fun n hn => ?_⟩
    by_cases hold : n.number < d.fresh
    · exact hstep.grows.mem_ids n (hids n hold)
    · exact hstep.mem_ids_of_lt n.number (by omega) hn

end WordTemplate.Xml
