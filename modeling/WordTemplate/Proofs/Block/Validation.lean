import WordTemplate.Proofs.Block.Soundness

/-!
# Anchors of blocks within blocks

In a framed outline the content of every block shows just the anchors of the blocks below it, each
of them once. So the validation of the anchors succeeds.

* `Framed.anchoredOnce`: how often anchors occur in the contents.
* `AnchoredOnce.validate_eq_ok`: the validation succeeds.
-/

namespace WordTemplate

open Xml Forest

variable {content : Block.Template → Forest Label} {rank : Rank} {P : Forest Part}
  {T : Forest Block.Template} {ss : List Sign} {mute : List String} {d : Document}

/-- The anchors among the signs of an outline are those of its blocks. -/
theorem Framed.anchorIds_eq (h : Framed content rank P T ss) : anchorIds ss = rootIds T := by
  induction h with
  | nil => rfl
  | text _ ih => exact ih
  | value _ _ ih => exact ih
  | mark _ _ ih => exact ih
  | keyword _ _ ih => rw [anchorIds_cons_anchor, ih, rootIds_cons]
  | block _ _ _ _ _ _ ih => rw [anchorIds_cons_anchor, ih, rootIds_cons]
  | last => rfl
  | more _ _ _ ih => rw [anchorIds_cons_anchor, ih, rootIds_cons]

/-! ## Occurrences of anchors -/

/-- How many nodes at and below those of a list carry an insertion point. -/
def InsertionPoint.occurrences (p : InsertionPoint) (d : Document) (ns : List NodeId) : Nat :=
  (d.treesAt ns).toList.countP (p.isOn ·.label)

/-- Whether the anchor of every block below another one occurs exactly once in the content of that
one. -/
def AnchoredOnce (d : Document) : Forest Block.Template → Prop
  | .nil => True
  | .cons t T TS =>
    (∀ inner ∈ T.roots, inner.anchor.occurrences d t.content = 1) ∧ AnchoredOnce d T ∧
      AnchoredOnce d TS

theorem occurrences_eq {t : Block.Template} {ns : List NodeId} (hs : Sound mute (labels (d.treesAt ns))) :
    t.anchor.occurrences d ns = (anchorIds (signs (labels (d.treesAt ns)))).count t.anchor.id := by
  rw [InsertionPoint.occurrences, Block.Template.anchor, ← countP_isOn hs, labels, toList_map,
    List.countP_map]
  rfl

/-- The contents of all blocks of an outline hold the anchors of the blocks below them once. -/
theorem Framed.anchoredOnce (h : Framed d.contentOf rank P T ss)
    (hs : ∀ t ∈ T.toList, Sound mute (d.contentOf t)) (hnd : (T.toList.map (·.number)).Nodup) :
    AnchoredOnce d T := by
  have once : ∀ {t : Block.Template} {T : Forest Block.Template}, Sound mute (d.contentOf t) →
      anchorIds (signs (d.contentOf t)) = rootIds T →
      (T.toList.map (·.number)).Nodup →
      ∀ inner ∈ T.roots, inner.anchor.occurrences d t.content = 1 := by
    intro t T hs hids hnd inner hinner
    rw [occurrences_eq hs]
    show (anchorIds (signs (d.contentOf t))).count inner.anchor.id = 1
    rw [hids]
    exact Nat.le_antisymm (List.nodup_iff_count.mp (nodup_anchorIds hnd) _)
      (List.count_pos_iff.mpr (List.mem_map_of_mem hinner))
  induction h with
  | nil => trivial
  | text _ ih => exact ih hs hnd
  | value _ _ ih => exact ih hs hnd
  | mark _ _ ih => exact ih hs hnd
  | keyword hk _ ih =>
    simp only [toList, List.map_cons, List.nil_append, List.nodup_cons] at hnd
    exact ⟨by simp [roots], trivial, ih (fun t ht => hs t (by simp [toList, ht])) hnd.2⟩
  | @block t PS P TS T ss _ _ _ hPS _ ihs ih =>
    simp only [toList, List.map_cons, List.map_append, List.nodup_cons, List.nodup_append] at hnd
    exact ⟨once (hs t (by simp [toList])) hPS.anchorIds_eq hnd.2.1,
      ihs (fun t ht => hs t (by simp [toList, ht])) hnd.2.1,
      ih (fun t ht => hs t (by simp [toList, ht])) hnd.2.2.1⟩
  | @last t P T hP ih =>
    simp only [tree, toList, List.append_nil, List.map_cons, List.nodup_cons] at hnd
    exact ⟨once (hs t (by simp [toList, tree])) hP.anchorIds_eq hnd.2,
      ih (fun t ht => hs t (by simp [toList, tree, ht])) hnd.2, trivial⟩
  | @more t P PS T TS ss hP _ ih ihs =>
    simp only [toList, List.map_cons, List.map_append, List.nodup_cons, List.nodup_append] at hnd
    exact ⟨once (hs t (by simp [toList])) hP.anchorIds_eq hnd.2.1,
      ih (fun t ht => hs t (by simp [toList, ht])) hnd.2.1,
      ihs (fun t ht => hs t (by simp [toList, ht])) hnd.2.2.1⟩

/-- An anchor is found in the content of a block if a node at or below one of its nodes carries it. -/
theorem checkAnchor_eq_ok_iff {t inner : Block.Template} : Block.checkAnchor d t inner = .ok () ↔
    ∃ n ∈ t.content, (inner.anchor.resolve? d n).isSome := by
  rw [Block.checkAnchor, ← List.any_eq_true]
  split <;> simp_all

theorem checkAnchor_eq_ok_iff_isOn {t inner : Block.Template} : Block.checkAnchor d t inner = .ok () ↔
    ∃ node ∈ (d.treesAt t.content).toList, inner.anchor.isOn node.label = true := by
  simp only [checkAnchor_eq_ok_iff, InsertionPoint.resolve?, Option.isSome_map, List.find?_isSome,
    Document.mem_toList_treesAt]
  constructor
  · rintro ⟨n, hn, node, hnode, hon⟩
    exact ⟨node, ⟨n, hn, hnode⟩, hon⟩
  · rintro ⟨node, ⟨n, hn, hnode⟩, hon⟩
    exact ⟨n, hn, node, hnode, hon⟩

/-- An anchor that occurs is found. -/
theorem checkAnchor_eq_ok {t inner : Block.Template}
    (h : inner.anchor.occurrences d t.content = 1) : Block.checkAnchor d t inner = .ok () := by
  refine checkAnchor_eq_ok_iff_isOn.mpr (List.countP_pos_iff.mp ?_)
  rw [← InsertionPoint.occurrences, h]
  exact Nat.one_pos

/-- The validation succeeds if the anchors of inner blocks occur where they are looked for. -/
theorem AnchoredOnce.validate_eq_ok (h : AnchoredOnce d T) : Block.validate d T = .ok () := by
  induction T with
  | nil => rfl
  | cons t T TS ih ihs =>
    obtain ⟨hthis, hT, hTS⟩ := h
    have hchecks : T.roots.forM (Block.checkAnchor d t) = .ok () := by
      generalize T.roots = inner at hthis
      induction inner with
      | nil => rfl
      | cons c inner ihc =>
        rw [List.forM, checkAnchor_eq_ok (hthis c (by simp))]
        exact ihc fun c hc => hthis c (by simp [hc])
    unfold Block.validate
    rw [hchecks, ih hT, ihs hTS]
    rfl

end WordTemplate
