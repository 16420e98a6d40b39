import Mathlib.Data.List.Perm.Subperm
import WordTemplate.Proofs.Block.Validation
import WordTemplate.Block.Template

/-!
# Anchors in place

Every block has one anchor. If those of the blocks at the top are in the scope, and those of all
other blocks are in the content of the block above, then they are nowhere else, since no anchor is
left over: `covers_of_nested`. Whether they are is what the validation checks, except for the blocks
at the top.

* `Nested.length_le`: so many anchors are needed for this.
* `nested_of_validate_eq_ok`: what the validation checks.
-/

namespace WordTemplate

open Xml Forest

variable {content : Block.Template → Forest Label} {T : Forest Block.Template} {ss : List Sign}
  {mute : List String} {d : Document} {root : NodeId}

/-! ## Counting anchors -/

/-- The anchors that the contents of blocks show. -/
def shownIds (content : Block.Template → Forest Label) (T : Forest Block.Template) : List String :=
  T.toList.flatMap fun t => anchorIds (signs (content t))

theorem length_shownIds_cons (content : Block.Template → Forest Label) (t : Block.Template)
    (T TS : Forest Block.Template) : (shownIds content (cons t T TS)).length =
      (anchorIds (signs (content t))).length + (shownIds content T).length +
        (shownIds content TS).length := by
  simp only [shownIds, toList, List.flatMap_cons, List.flatMap_append, List.length_append]
  omega

/-- Whether the anchor of every block below another one is in the content of that one. -/
def Nested (content : Block.Template → Forest Label) : Forest Block.Template → Prop
  | .nil => True
  | .cons t T TS =>
    (∀ id ∈ rootIds T, id ∈ anchorIds (signs (content t))) ∧ Nested content T ∧ Nested content TS

theorem rootIds_subperm {ids : List String} (hnd : (T.toList.map (·.number)).Nodup)
    (h : ∀ id ∈ rootIds T, id ∈ ids) : (rootIds T).Subperm ids :=
  List.Nodup.subperm (nodup_anchorIds hnd) h

/-- There are at least as many anchors as blocks. -/
theorem Nested.length_le (h : Nested content T) (hnd : (T.toList.map (·.number)).Nodup) :
    T.toList.length ≤ (shownIds content T).length + (rootIds T).length := by
  induction T with
  | nil => simp [toList]
  | cons t T TS ih ihs =>
    obtain ⟨hthis, hT, hTS⟩ := h
    simp only [toList, List.map_cons, List.map_append, List.nodup_cons, List.nodup_append] at hnd
    have hlen := (rootIds_subperm hnd.2.1 hthis).length_le
    have hin := ih hT hnd.2.1
    have hout := ihs hTS hnd.2.2.1
    rw [length_shownIds_cons, rootIds_cons, List.length_cons]
    simp only [toList, List.length_cons, List.length_append]
    omega

/-- If there are no more anchors than blocks, every content shows just those of the blocks below. -/
theorem Nested.fit (h : Nested content T) (hnd : (T.toList.map (·.number)).Nodup)
    (hs : ∀ t ∈ T.toList, Sound mute (content t))
    (hlen : (shownIds content T).length + (rootIds T).length ≤ T.toList.length) (verbatim : Bool) :
    Fit mute Covers Covers content verbatim T := by
  induction T generalizing verbatim with
  | nil => trivial
  | cons t T TS ih ihs =>
    obtain ⟨hthis, hT, hTS⟩ := h
    simp only [toList, List.map_cons, List.map_append, List.nodup_cons, List.nodup_append] at hnd
    simp only [toList, List.mem_cons, List.mem_append] at hs
    have hsub := rootIds_subperm hnd.2.1 hthis
    have hle := hsub.length_le
    have hin := hT.length_le hnd.2.1
    have hout := hTS.length_le hnd.2.2.1
    rw [length_shownIds_cons, rootIds_cons, List.length_cons] at hlen
    simp only [toList, List.length_cons, List.length_append] at hlen
    refine ⟨fun _ => ⟨hs t (.inl rfl), ?_⟩, ih hT hnd.2.1 (fun t ht => hs t (.inr (.inl ht))) (by omega) _,
      ihs hTS hnd.2.2.1 (fun t ht => hs t (.inr (.inr ht))) (by omega) _⟩
    have hcovers : Covers (rootIds T) (signs (content t)) :=
      ⟨(hsub.perm_of_length_le (by omega)).symm, nodup_anchorIds hnd.2.1⟩
    split <;> exact hcovers

/-- If every anchor is in place, there is none anywhere else. -/
theorem covers_of_nested (h : Nested content T) (hroots : ∀ id ∈ rootIds T, id ∈ anchorIds ss)
    (hnd : (T.toList.map (·.number)).Nodup) (hs : ∀ t ∈ T.toList, Sound mute (content t))
    (hperm : (anchorIds ss ++ shownIds content T).Perm (T.toList.map (·.anchor.id))) (verbatim : Bool) :
    Covers (rootIds T) ss ∧ Fit mute Covers Covers content verbatim T := by
  have htotal := hperm.length_eq
  rw [List.length_append, List.length_map] at htotal
  have hsub := rootIds_subperm hnd hroots
  have hle := hsub.length_le
  have hlen := h.length_le hnd
  refine ⟨⟨(hsub.perm_of_length_le ?_).symm, nodup_anchorIds hnd⟩, h.fit hnd hs ?_ verbatim⟩
  · omega
  · omega

/-! ## Looking for anchors -/

/-- An anchor is found in a sound forest if and only if the forest shows it. -/
theorem exists_isOn_iff {f : Forest Node} {kind : Directive.Kind} {number : Nat}
    (hs : Sound mute (labels f)) :
    (∃ node ∈ f.toList, (Block.startPoint kind number).isOn node.label = true) ↔
      (Block.startPoint kind number).id ∈ anchorIds (signs (labels f)) := by
  rw [← List.count_pos_iff, ← countP_isOn hs, List.countP_pos_iff, labels, toList_map]
  simp

theorem isSome_resolve?_iff {t : Block.Template} (hs : Sound mute (labels (d.treeAt root))) :
    (t.anchor.resolve? d root).isSome = true ↔
      t.anchor.id ∈ anchorIds (signs (labels (d.treeAt root))) := by
  rw [InsertionPoint.resolve?, Option.isSome_map, List.find?_isSome]
  exact exists_isOn_iff hs

theorem mem_anchorIds_of_checkAnchor {t inner : Block.Template} (hs : Sound mute (d.contentOf t))
    (h : Block.checkAnchor d t inner = .ok ()) :
    inner.anchor.id ∈ anchorIds (signs (d.contentOf t)) :=
  (exists_isOn_iff hs).mp (checkAnchor_eq_ok_iff_isOn.mp h)

theorem checkAnchor_of_forM {t : Block.Template} {inner : List Block.Template}
    (h : inner.forM (Block.checkAnchor d t) = .ok ()) :
    ∀ i ∈ inner, Block.checkAnchor d t i = .ok () := by
  induction inner with
  | nil => simp
  | cons i inner ih =>
    rw [List.forM] at h
    cases hi : Block.checkAnchor d t i with
    | error e =>
      rw [hi] at h
      cases h
    | ok u =>
      rw [hi] at h
      rintro j (_ | ⟨_, hj⟩)
      · exact hi
      · exact ih h j hj

/-- What the validation of a block comes to. -/
theorem of_validate_cons {t : Block.Template} {TS : Forest Block.Template}
    (h : Block.validate d (cons t T TS) = .ok ()) :
    (∀ i ∈ T.roots, Block.checkAnchor d t i = .ok ()) ∧ Block.validate d T = .ok () ∧
      Block.validate d TS = .ok () := by
  unfold Block.validate at h
  cases hthis : T.roots.forM (Block.checkAnchor d t) with
  | error e =>
    rw [hthis] at h
    cases h
  | ok u =>
    rw [hthis] at h
    cases hT : Block.validate d T with
    | error e =>
      rw [hT] at h
      cases h
    | ok u' =>
      rw [hT] at h
      exact ⟨checkAnchor_of_forM hthis, rfl, h⟩

/-- The validation checks that the anchors of inner blocks are in place. -/
theorem nested_of_validate_eq_ok (hs : ∀ t ∈ T.toList, Sound mute (d.contentOf t))
    (h : Block.validate d T = .ok ()) : Nested d.contentOf T := by
  induction T with
  | nil => trivial
  | cons t T TS ih ihs =>
    simp only [toList, List.mem_cons, List.mem_append] at hs
    obtain ⟨hthis, hT, hTS⟩ := of_validate_cons h
    refine ⟨fun id hid => ?_, ih (fun t ht => hs t (.inr (.inl ht))) hT,
      ihs (fun t ht => hs t (.inr (.inr ht))) hTS⟩
    obtain ⟨inner, hinner, rfl⟩ := List.mem_map.mp hid
    exact mem_anchorIds_of_checkAnchor (hs t (.inl rfl)) (hthis inner hinner)

end WordTemplate
