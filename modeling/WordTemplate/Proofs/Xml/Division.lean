import WordTemplate.Proofs.Forest.Each
import WordTemplate.Proofs.Xml.Children
import WordTemplate.Xml.Division

/-!
# Nodes of a divided forest

A division loses no node and makes only new ones (`Conserves`), at every level from the place of the
division up. So the parts can be put where the forest was, and nothing else in the document changes
(`settle_spec`): what stands below a node of the parts came from the forest or is new
(`WellFormed.mem_of_mem_children_settle`).
-/

namespace WordTemplate

open Xml Forest

variable {f gone p children rest : Forest Node} {fresh : Nat} {δ δ' : Division} {node : Node}
  {place : NodeId}

/-- Whether a division loses no node and makes only new ones, with the numbers from `fresh` on. -/
structure Conserves (f : Forest Node) (fresh : Nat) (δ : Division) (gone : Forest Node) : Prop where
  fresh_le : fresh ≤ δ.fresh
  perm : (ids (δ.kept ++ (gone ++ δ.dropped))).Perm
    (ids f ++ (List.range' fresh (δ.fresh - fresh)).map NodeId.mk)

namespace Conserves

/-- Nothing is divided off. -/
theorem refl (hf : (ids (δ.kept ++ gone)).Perm (ids f)) (hdropped : δ.dropped = nil)
    (hfresh : δ.fresh = fresh) : Conserves f fresh δ gone where
  fresh_le := Nat.le_of_eq hfresh.symm
  perm := by simpa [hdropped, hfresh, append_nil] using hf

/-- The division one level up. -/
theorem raise (h : Conserves children fresh δ gone) (node : Node) (p : Forest Node) :
    Conserves (tree node children) fresh (δ.raise node p gone) (δ.raise node p gone).lower := by
  have hle := h.fresh_le
  obtain ⟨copies, hcopies⟩ : ∃ copies, Division.propertyCopies (δ.fresh + 1) p = copies := ⟨_, rfl⟩
  have hcids : ids copies = (List.range' (δ.fresh + 1) copies.size).map NodeId.mk := by
    rw [← hcopies, Division.propertyCopies, show (identify _ _).size = _ from size_identify _ _]
    exact ids_identify _ _
  have hrange : List.range' fresh (δ.fresh + 1 + copies.size - fresh) =
      List.range' fresh (δ.fresh - fresh) ++ (δ.fresh :: List.range' (δ.fresh + 1) copies.size) := by
    obtain ⟨k, hk⟩ := Nat.exists_eq_add_of_le hle
    rw [← List.range'_succ, hk, Nat.add_sub_cancel_left, List.range'_append_1]
    congr 1
    omega
  -- The identifiers are the same whether the counterpart is put in or left out.
  have hδ := h.perm
  simp only [Division.raise, hcopies]
  refine ⟨by dsimp only; omega, ?_⟩
  dsimp only
  rw [hrange]
  split <;>
  · simp only [ids_append, ids_tree, ids_nil, hcids, List.map_append, List.map_cons] at hδ ⊢
    rw [List.perm_iff_count] at hδ ⊢
    intro i
    have hδ := hδ i
    simp only [List.count_append, List.count_cons, List.count_nil] at hδ ⊢
    omega

/-- A division with other trees around what it keeps and what it moves. -/
theorem around (h : Conserves f fresh δ gone) {f' gone' : Forest Node} (extra : List NodeId)
    (hfresh : δ'.fresh = δ.fresh) (hdropped : δ'.dropped = δ.dropped)
    (hf : (ids f').Perm (ids f ++ extra))
    (hids : (ids (δ'.kept ++ gone')).Perm (ids (δ.kept ++ gone) ++ extra)) :
    Conserves f' fresh δ' gone' where
  fresh_le := hfresh ▸ h.fresh_le
  perm := by
    have hp := h.perm
    rw [hfresh, hdropped]
    simp only [ids_append] at hp hids ⊢
    rw [List.perm_iff_count] at hp hf hids ⊢
    intro i
    have hp := hp i
    have hf := hf i
    have hids := hids i
    simp only [List.count_append] at hp hf hids ⊢
    omega

/-- The old nodes that go were there before. -/
theorem mem_of_lt (h : Conserves f fresh δ gone) {i : NodeId} (hi : i ∈ ids gone)
    (hlt : i.number < fresh) : i ∈ ids f := by
  have hmem := h.perm.mem_iff.mp (show i ∈ ids (δ.kept ++ (gone ++ δ.dropped)) by simp [hi])
  refine (List.mem_append.mp hmem).resolve_right fun hnew => ?_
  obtain ⟨k, hk, rfl⟩ := List.mem_map.mp hnew
  exact absurd (List.mem_range'_1.mp hk).1 (by simpa using hlt)

/-- No node is in two of the parts. -/
theorem nodup (h : Conserves f fresh δ gone) (hnd : (ids f).Nodup)
    (hlt : ∀ i ∈ ids f, i.number < fresh) : (ids (δ.kept ++ (gone ++ δ.dropped))).Nodup :=
  h.perm.nodup_iff.mpr (nodup_append_range' hnd hlt _)

theorem not_mem_kept (h : Conserves f fresh δ gone) (hnd : (ids f).Nodup)
    (hlt : ∀ i ∈ ids f, i.number < fresh) {i : NodeId} (hi : i ∈ ids gone) : i ∉ ids δ.kept := by
  have hparts := h.nodup hnd hlt
  rw [ids_append, List.nodup_append] at hparts
  exact fun hk => hparts.2.2 i hk i (by simp [hi]) rfl

end Conserves

/-! ## Dividing after a place -/

theorem after_of_eq (h : node.id = place) :
    Division.after place fresh (cons node children rest) =
      ⟨tree node children, nil, rest, nil, fresh⟩ := by
  rw [Division.after, if_pos h]

theorem after_of_mem (h : node.id ≠ place) (hc : place ∈ ids children) :
    Division.after place fresh (cons node children rest) =
      { (Division.after place fresh children).raise node
          ((Division.after place fresh children).kept ++ (Division.after place fresh children).moved)
          ((Division.after place fresh children).lower ++
            (Division.after place fresh children).moved) with
        moved := rest } := by
  rw [Division.after, if_neg h, if_pos (any_id_iff.mpr hc)]

theorem after_of_not_mem (h : node.id ≠ place) (hc : place ∉ ids children) :
    Division.after place fresh (cons node children rest) =
      { Division.after place fresh rest with
        kept := cons node children (Division.after place fresh rest).kept } := by
  rw [Division.after, if_neg h, if_neg (by rwa [any_id_iff])]

theorem conserves_after (place : NodeId) (fresh : Nat) (f : Forest Node) :
    Conserves f fresh (Division.after place fresh f)
      ((Division.after place fresh f).lower ++ (Division.after place fresh f).moved) := by
  induction f with
  | nil => exact .refl (.refl _) rfl rfl
  | cons node children rest ihc ihr =>
    by_cases hid : node.id = place
    · rw [after_of_eq hid]
      exact .refl (by simp) rfl rfl
    by_cases hc : place ∈ ids children
    · rw [after_of_mem hid hc]
      exact (ihc.raise node _).around (ids rest) rfl rfl (by simp) (by simp)
    · rw [after_of_not_mem hid hc]
      refine ihr.around (ids (tree node children)) rfl rfl ?_ ?_
      · rw [ids_tree, ids_cons, ← List.cons_append]
        exact List.perm_append_comm
      · simp only [cons_append, ids_tree, ids_cons, ← List.cons_append]
        exact List.perm_append_comm

/-! ## Dividing before a place -/

theorem before_of_eq (h : node.id = place) :
    Division.before place fresh (cons node children rest) =
      ⟨cons node children rest, nil, nil, nil, fresh⟩ := by
  rw [Division.before, if_pos h]

theorem before_of_mem (h : node.id ≠ place) (hc : place ∈ ids children) :
    Division.before place fresh (cons node children rest) =
      { (Division.before place fresh children).raise node (Division.before place fresh children).kept
          ((Division.before place fresh children).moved ++
            (Division.before place fresh children).lower) with
        kept := tree node (Division.before place fresh children).kept ++ rest } := by
  rw [Division.before, if_neg h, if_pos (any_id_iff.mpr hc)]
  rfl

theorem before_of_not_mem (h : node.id ≠ place) (hc : place ∉ ids children) :
    Division.before place fresh (cons node children rest) =
      if node.label.isProperty then
        { Division.before place fresh rest with
          kept := cons node children (Division.before place fresh rest).kept }
      else
        { Division.before place fresh rest with
          moved := cons node children (Division.before place fresh rest).moved } := by
  rw [Division.before, if_neg h, if_neg (by rwa [any_id_iff])]

theorem conserves_before (place : NodeId) (fresh : Nat) (f : Forest Node) :
    Conserves f fresh (Division.before place fresh f)
      ((Division.before place fresh f).moved ++ (Division.before place fresh f).lower) := by
  induction f with
  | nil => exact .refl (.refl _) rfl rfl
  | cons node children rest ihc ihr =>
    by_cases hid : node.id = place
    · rw [before_of_eq hid]
      exact .refl (by simp) rfl rfl
    by_cases hc : place ∈ ids children
    · rw [before_of_mem hid hc]
      refine (ihc.raise node _).around (ids rest) rfl rfl (by simp) ?_
      change (ids (tree node _ ++ rest ++ (nil ++ _))).Perm (ids (tree node _ ++ _) ++ ids rest)
      simp only [ids_append, ids_nil, List.nil_append, List.append_assoc]
      exact List.Perm.append_left _ List.perm_append_comm
    · rw [before_of_not_mem hid hc]
      -- A node that only carries formatting stays in front of the place.
      split
      · refine ihr.around (ids (tree node children)) rfl rfl ?_ ?_
        · rw [ids_tree, ids_cons, ← List.cons_append]
          exact List.perm_append_comm
        · simp only [cons_append, ids_tree, ids_cons, ← List.cons_append]
          exact List.perm_append_comm
      · refine ihr.around (ids (tree node children)) rfl rfl ?_ ?_
        · rw [ids_tree, ids_cons, ← List.cons_append]
          exact List.perm_append_comm
        · simp only [ids_append, cons_append, ids_tree, ids_cons]
          rw [List.perm_iff_count]
          intro i
          simp only [List.count_append, List.count_cons]
          omega

/-! ## Copies of formatting -/

theorem Xml.Label.isContent_eq_false {l : Label} (h : l.isProperty = true) : l.isContent = false := by
  cases l with
  | text content => cases h
  | element tag => simpa [Label.isContent, Label.isProperty] using h

/-- A copy has the label of a node that carries formatting. -/
theorem exists_of_mem_propertyCopies (h : node ∈ (Division.propertyCopies fresh p).roots) :
    ∃ a ∈ p.roots, a.label.isProperty = true ∧ a.label = node.label := by
  have hlabels : (Division.propertyCopies fresh p).roots.map Node.label =
      (p.roots.filter (·.label.isProperty)).map Node.label := by
    rw [← roots_filterRoots, ← roots_map, ← roots_map]
    exact congrArg roots (labels_identify _ _)
  have hmem : node.label ∈ (p.roots.filter (·.label.isProperty)).map Node.label :=
    hlabels ▸ List.mem_map_of_mem h
  obtain ⟨a, ha, hlabel⟩ := List.mem_map.mp hmem
  exact ⟨a, (List.mem_filter.mp ha).1, (List.mem_filter.mp ha).2, hlabel⟩

/-- A counterpart has the label of its element. -/
theorem label_of_mem_lower {b : Node} (h : b ∈ (δ.raise node p gone).lower.roots) : b.label = node.label := by
  dsimp only [Division.raise] at h
  split at h
  · rw [roots_tree, List.mem_singleton] at h
    rw [h]
  · cases h

/-- Copies of formatting are no content. -/
theorem isContent_propertyCopies (h : node ∈ (Division.propertyCopies fresh p).roots) :
    node.label.isContent = false := by
  obtain ⟨a, -, ha, hlabel⟩ := exists_of_mem_propertyCopies h
  exact Label.isContent_eq_false (hlabel ▸ ha)

/-! ## Properties of nodes -/

/-- Whether `P` outlasts a division: what is above a node with `E` has `E` and takes any children, its counterpart
does as well, and copies are as good as what they are copies of. -/
structure Divisible (P : Node → List Node → Prop) (E : Label → Prop) (fresh : Nat) : Prop where
  above : ∀ {node kids kid}, P node kids → kid ∈ kids → E kid.label →
    E node.label ∧ ∀ kids', P node kids' ∧ ∀ k, fresh ≤ k → P ⟨⟨k⟩, node.label⟩ kids'
  copy : ∀ {f k}, fresh ≤ k → Each P f → Each P (identify k (labels f))

section Divisible

variable {P : Node → List Node → Prop} {E : Label → Prop}

/-- Above a node with `E` everything has `E`. -/
theorem Divisible.exists_root (hP : Divisible P E fresh) (h : Each P f) (hplace : place ∈ ids f)
    (hE : ∀ node ∈ f.toList, node.id = place → E node.label) : ∃ a ∈ f.roots, E a.label := by
  induction f with
  | nil => simp at hplace
  | cons a cs rest ihc ihr =>
    simp only [toList, List.mem_cons, List.mem_append] at hE
    rw [ids_cons, List.mem_cons, List.mem_append] at hplace
    rcases hplace with rfl | hplace | hplace
    · exact ⟨a, by simp [roots], hE a (.inl rfl) rfl⟩
    · obtain ⟨kid, hkid, hkidE⟩ := ihc h.2.1 hplace fun node hnode => hE node (.inr (.inl hnode))
      exact ⟨a, by simp [roots], (hP.above h.1 hkid hkidE).1⟩
    · obtain ⟨b, hb, hbE⟩ := ihr h.2.2 hplace fun node hnode => hE node (.inr (.inr hnode))
      exact ⟨b, by simp [roots, hb], hbE⟩

/-- The division one level up. -/
theorem Divisible.raise (hP : Divisible P E fresh) (hle : fresh ≤ δ.fresh) (h : Each P (δ.kept ++ δ.dropped))
    (hnode : ∀ kids, P node kids ∧ ∀ k, fresh ≤ k → P ⟨⟨k⟩, node.label⟩ kids) (hp : Each P p)
    (hgone : Each P gone) :
    Each P ((δ.raise node p gone).kept ++ ((δ.raise node p gone).lower ++ (δ.raise node p gone).dropped)) := by
  obtain ⟨hkept, hdropped⟩ := each_append.mp h
  have hcopies : Each P (Division.propertyCopies (δ.fresh + 1) p) :=
    hP.copy (Nat.le_succ_of_le hle) (hp.filterRoots _)
  have hcounterpart := fun kids => (hnode kids).2 δ.fresh hle
  dsimp only [Division.raise]
  split <;> simp [(hnode _).1, hcounterpart, hkept, hdropped, hcopies, hgone]

/-- Dividing after a place. -/
theorem Divisible.each_after (hP : Divisible P E fresh) (place : NodeId) (h : Each P f)
    (hE : ∀ node ∈ f.toList, node.id = place → E node.label) :
    Each P ((Division.after place fresh f).kept ++ ((Division.after place fresh f).lower ++
      ((Division.after place fresh f).moved ++ (Division.after place fresh f).dropped))) := by
  induction f with
  | nil => trivial
  | cons node children rest ihc ihr =>
    obtain ⟨hnode, hcs, hrest⟩ := each_cons.mp h
    simp only [toList, List.mem_cons, List.mem_append] at hE
    have hEc := fun a ha => hE a (.inr (.inl ha))
    by_cases hid : node.id = place
    · rw [after_of_eq hid]
      simp [hnode, hcs, hrest]
    by_cases hc : place ∈ ids children
    · rw [after_of_mem hid hc]
      obtain ⟨kid, hkid, hkidE⟩ := hP.exists_root hcs hc hEc
      have hin := ihc hcs hEc
      simp only [each_append] at hin
      obtain ⟨hkept, hlower, hmoved, hdropped⟩ := hin
      have hraise := hP.raise (conserves_after place fresh children).fresh_le (each_append.mpr ⟨hkept, hdropped⟩)
        (hP.above hnode hkid hkidE).2 (each_append.mpr ⟨hkept, hmoved⟩) (each_append.mpr ⟨hlower, hmoved⟩)
      simp only [each_append] at hraise ⊢
      exact ⟨hraise.1, hraise.2.1, hrest, hraise.2.2⟩
    · rw [after_of_not_mem hid hc]
      simpa [hnode, hcs] using ihr hrest fun a ha => hE a (.inr (.inr ha))

/-- Dividing before a place. -/
theorem Divisible.each_before (hP : Divisible P E fresh) (place : NodeId) (h : Each P f)
    (hE : ∀ node ∈ f.toList, node.id = place → E node.label) :
    Each P ((Division.before place fresh f).kept ++ ((Division.before place fresh f).lower ++
      ((Division.before place fresh f).moved ++ (Division.before place fresh f).dropped))) := by
  induction f with
  | nil => trivial
  | cons node children rest ihc ihr =>
    obtain ⟨hnode, hcs, hrest⟩ := each_cons.mp h
    simp only [toList, List.mem_cons, List.mem_append] at hE
    have hEc := fun a ha => hE a (.inr (.inl ha))
    by_cases hid : node.id = place
    · rw [before_of_eq hid]
      simp [hnode, hcs, hrest]
    by_cases hc : place ∈ ids children
    · rw [before_of_mem hid hc]
      obtain ⟨kid, hkid, hkidE⟩ := hP.exists_root hcs hc hEc
      have hin := ihc hcs hEc
      simp only [each_append] at hin
      obtain ⟨hkept, hlower, hmoved, hdropped⟩ := hin
      have hraise := hP.raise (conserves_before place fresh children).fresh_le (each_append.mpr ⟨hkept, hdropped⟩)
        (hP.above hnode hkid hkidE).2 hkept (each_append.mpr ⟨hmoved, hlower⟩)
      simp only [each_append] at hraise ⊢
      exact ⟨⟨hraise.1, hrest⟩, hraise.2.1, trivial, hraise.2.2⟩
    · rw [before_of_not_mem hid hc]
      split <;> simpa [hnode, hcs] using ihr hrest fun a ha => hE a (.inr (.inr ha))

end Divisible

/-! ## Labels -/

/-- Whether `K` holds of all labels of a forest. -/
abbrev Labelled (K : Label → Prop) (f : Forest Node) : Prop :=
  Each (fun n _ => K n.label) f

section Labelled

variable {K : Label → Prop}

theorem labelled_iff : Labelled K f ↔ ∀ l ∈ (labels f).toList, K l := by
  rw [Labelled, each_iff_forall, labels, toList_map, List.forall_mem_map]

theorem divisible_labelled (K : Label → Prop) (fresh : Nat) :
    Divisible (fun n _ => K n.label) (fun _ => True) fresh where
  above hnode _ _ := ⟨trivial, fun _ => ⟨hnode, fun _ _ => hnode⟩⟩
  copy _ h := labelled_iff.mpr (by rw [labels_identify]; exact labelled_iff.mp h)

/-- Dividing makes no new labels. -/
theorem labelled_after (place : NodeId) (fresh : Nat) (h : Labelled K f) :
    Labelled K ((Division.after place fresh f).kept ++ ((Division.after place fresh f).lower ++
      ((Division.after place fresh f).moved ++ (Division.after place fresh f).dropped))) :=
  (divisible_labelled K fresh).each_after place h fun _ _ _ => trivial

theorem labelled_before (place : NodeId) (fresh : Nat) (h : Labelled K f) :
    Labelled K ((Division.before place fresh f).kept ++ ((Division.before place fresh f).lower ++
      ((Division.before place fresh f).moved ++ (Division.before place fresh f).dropped))) :=
  (divisible_labelled K fresh).each_before place h fun _ _ _ => trivial

end Labelled

/-! ## Putting the parts in place -/

namespace Xml.Document

variable {d : Document} {as parts : Forest Node} {a : Node} {m n container : NodeId}

theorem WellFormed.settle_spec (wf : d.WellFormed) {δ : Division} {p : Forest Node}
    {container : NodeId} (ht : d.treeAt container = tree a as) (hle : d.fresh ≤ δ.fresh)
    (hperm : (Xml.ids (p ++ δ.dropped)).Perm
      (Xml.ids (tree a as) ++ (List.range' d.fresh (δ.fresh - d.fresh)).map NodeId.mk)) :
    d.Grows (d.settle container δ p) ∧ ∀ m ∈ d.ids, m ∉ Xml.ids (tree a as) →
      (d.settle container δ p).treeAt m =
        (d.treeAt m).replace (·.id == container) fun _ _ => p := by
  have heq : d.settle container δ p =
      d.remake (δ.dropped ++ d.trees.replace (·.id == container) fun _ _ => p)
        (d.fresh + (δ.fresh - d.fresh)) := by
    rw [Nat.add_sub_cancel' hle]
    rfl
  have ht' := ht
  rw [wf.treeAt] at ht'
  have hgrows : d.Grows (d.settle container δ p) := by
    rw [heq]
    refine wf.grows_remake _ ?_
    have h₁ := perm_ids_replace (fun _ _ => p) ht'
    rw [ids_append] at hperm ⊢
    rw [List.perm_iff_count] at h₁ hperm ⊢
    intro i
    have h₁ := h₁ i
    have h₂ := hperm i
    simp only [List.count_append] at h₁ h₂ ⊢
    omega
  refine ⟨hgrows, fun m hm hmt => ?_⟩
  have hnot : m ∉ Xml.ids (p ++ δ.dropped) := by
    intro hmem
    rcases List.mem_append.mp (hperm.mem_iff.mp hmem) with h | h
    · exact hmt h
    · obtain ⟨i, hi, rfl⟩ := List.mem_map.mp h
      have h₁ := wf.lt_fresh _ hm
      have h₂ := (List.mem_range'_1.mp hi).1
      simp only at h₁
      omega
  rw [ids_append, List.mem_append, not_or] at hnot
  rw [hgrows.wellFormed.treeAt, heq, remake_trees, Forest.treeAt_append,
    any_id_eq_false_iff.mpr hnot.2, wf.treeAt]
  exact Xml.treeAt_replace _ wf.ids_nodup ht' hmt hnot.1

theorem WellFormed.mem_ids_settle (wf : d.WellFormed) (ht : d.treeAt container = tree a as)
    (hgrows : d.Grows (d.settle container δ parts)) (hm : m ∈ Xml.ids (parts ++ δ.dropped)) :
    m ∈ (d.settle container δ parts).ids := by
  by_cases hmem : m ∈ d.ids
  · exact hgrows.mem_ids m hmem
  · change m ∈ Xml.ids (δ.dropped ++ d.trees.replace (·.id == container) fun _ _ => parts)
    have hmt := fun h => hmem (wf.mem_ids_of_mem_treeAt (n := container) (by rw [ht]; exact h))
    rw [wf.treeAt] at ht
    have hperm := (perm_ids_replace (fun _ _ => parts) ht).mem_iff (a := m)
    simp only [ids_append, List.mem_append] at hperm hm ⊢
    tauto

/-- The parts stand in the document as they are. -/
theorem WellFormed.treeAt_settle_of_mem (wf : d.WellFormed) (ht : d.treeAt container = tree a as)
    (hgrows : d.Grows (d.settle container δ parts)) (hm : m ∈ Xml.ids parts) :
    (d.settle container δ parts).treeAt m = parts.treeAt (·.id == m) := by
  have htrees : (d.settle container δ parts).trees =
      δ.dropped ++ d.trees.replace (·.id == container) fun _ _ => parts := rfl
  have hnd := hgrows.wellFormed.ids_nodup
  rw [htrees, ids_append, List.nodup_append] at hnd
  rw [wf.treeAt] at ht
  have hmem : m ∈ Xml.ids (d.trees.replace (·.id == container) fun _ _ => parts) := by
    obtain ⟨up, l, node, cs, r, hspot, hid⟩ := exists_spot (Xml.mem_ids_of_treeAt ht).1
    rw [← hid, replace_spot (wf.ids_nodup) hspot, ids_wrap]
    simp [hm]
  have hdropped : m ∉ Xml.ids δ.dropped := fun h => hnd.2.2 m h m hmem rfl
  rw [hgrows.wellFormed.treeAt, htrees, Forest.treeAt_append, any_id_eq_false_iff.mpr hdropped,
    if_neg Bool.false_ne_true]
  exact treeAt_replace_of_mem (fun _ _ => parts) hnd.2.1 ht hm

/-- What stands below a node of the parts is a node of the parts. -/
theorem WellFormed.mem_ids_of_mem_children_settle (wf : d.WellFormed)
    (ht : d.treeAt container = tree a as) (hgrows : d.Grows (d.settle container δ parts))
    (hm : m ∈ Xml.ids (parts ++ δ.dropped)) (hn : n ∈ (d.settle container δ parts).children m) :
    n ∈ Xml.ids (parts ++ δ.dropped) := by
  have hn := hgrows.wellFormed.mem_treeAt_of_mem_children hn
  rw [ids_append, List.mem_append] at hm ⊢
  rcases hm with hm | hm
  · rw [wf.treeAt_settle_of_mem ht hgrows hm] at hn
    exact .inl (Xml.mem_ids_of_mem_treeAt hn)
  · have htrees : (d.settle container δ parts).trees =
        δ.dropped ++ d.trees.replace (·.id == container) fun _ _ => parts := rfl
    rw [hgrows.wellFormed.treeAt, htrees, Forest.treeAt_append, any_id_iff.mpr hm, if_pos rfl] at hn
    exact .inr (Xml.mem_ids_of_mem_treeAt hn)

/-! ## The two divisions -/

theorem WellFormed.mem_ids_of_isAncestor (wf : d.WellFormed) (h : d.isAncestor n m = true) :
    n ∈ d.ids := by
  by_contra hn
  simpa [wf.treeAt_eq_nil hn] using wf.mem_treeAt_of_isAncestor h

theorem WellFormed.isAncestor_iff (wf : d.WellFormed) (ht : d.treeAt a.id = tree a as) (place : NodeId) :
    (a.id ≠ place ∧ d.isAncestor a.id place = true) ↔ place ∈ Xml.ids as := by
  constructor
  · rintro ⟨hne, hanc⟩
    have hmem := wf.mem_treeAt_of_isAncestor hanc
    rw [ht, ids_tree, List.mem_cons] at hmem
    exact hmem.resolve_left hne.symm
  · intro hplace
    have hnd := wf.nodup_treeAt a.id
    rw [ht, ids_tree, List.nodup_cons] at hnd
    have hne : a.id ≠ place := fun he => hnd.1 (he ▸ hplace)
    exact ⟨hne, wf.isAncestor_of_mem (by simp [ht, hplace]) hne.symm⟩

/-- Dividing an element after a node: nothing happens if the node is not below it. -/
theorem WellFormed.divideAfter_cases (wf : d.WellFormed) (ht : d.treeAt a.id = tree a as)
    (place : NodeId) :
    (place ∉ Xml.ids as ∧ d.divideAfter a.id place = ([a.id], d)) ∨
      ∃ δ, place ∈ Xml.ids as ∧ Division.after place d.fresh (tree a as) = δ ∧
        (∃ kcs, δ.kept = tree a kcs) ∧ δ.moved = nil ∧
        d.divideAfter a.id place =
          (a.id :: δ.lower.roots.map Node.id, d.settle a.id δ (δ.kept ++ δ.lower)) := by
  have hiff := wf.isAncestor_iff ht place
  by_cases hplace : place ∈ Xml.ids as
  · refine .inr ⟨_, hplace, rfl, ?_, ?_, ?_⟩
    · rw [tree, after_of_mem (hiff.mpr hplace).1 hplace]
      exact ⟨_, rfl⟩
    · rw [tree, after_of_mem (hiff.mpr hplace).1 hplace]
    · rw [divideAfter, if_pos (hiff.mpr hplace)]
      simp only [wf.turn, wf.knots_eq, List.contains_nil, Bool.false_eq_true, if_false, ht]
  · exact .inl ⟨hplace, if_neg (mt hiff.mp hplace)⟩

/-- The same in the other direction. -/
theorem WellFormed.divideBefore_cases (wf : d.WellFormed) (ht : d.treeAt a.id = tree a as)
    (place : NodeId) :
    (place ∉ Xml.ids as ∧ d.divideBefore a.id place = ([a.id], d)) ∨
      ∃ δ, place ∈ Xml.ids as ∧ Division.before place d.fresh (tree a as) = δ ∧
        (∃ kcs, δ.kept = tree a kcs) ∧ δ.moved = nil ∧
        d.divideBefore a.id place =
          (δ.lower.roots.map Node.id ++ [a.id], d.settle a.id δ (δ.lower ++ δ.kept)) := by
  have hiff := wf.isAncestor_iff ht place
  by_cases hplace : place ∈ Xml.ids as
  · refine .inr ⟨_, hplace, rfl, ?_, ?_, ?_⟩
    · rw [tree, before_of_mem (hiff.mpr hplace).1 hplace]
      exact ⟨_, append_nil _⟩
    · rw [tree, before_of_mem (hiff.mpr hplace).1 hplace]
      rfl
    · rw [divideBefore, if_pos (hiff.mpr hplace)]
      simp only [wf.turn, wf.knots_eq, List.contains_nil, Bool.false_eq_true, if_false, ht]
  · exact .inl ⟨hplace, if_neg (mt hiff.mp hplace)⟩

end Xml.Document

end WordTemplate
