import WordTemplate.Proofs.Block.PlaceAll
import WordTemplate.Proofs.Block.RowContents
import WordTemplate.Proofs.Block.Validation

/-!
# Sections that share a row

A block around rows of a table may have a separator in a row between its first and its last one. Both sections
are placed around that row then, so the anchor of the second one comes among the rows of the first one and is
taken out with them. It is not in the content of the block, and the second section has no content.

* `placeAll_sections`: the bounds of the block and of its sections.
* `Overlaps.extractAll_eq`: their contents.
* `SectionsOut.validate_eq`: the validation finds that the anchor is missing.
-/

namespace WordTemplate

open Xml Forest Xml.Document

variable {d d' d₁ d₂ d₃ : Document} {n a b e A T : NodeId} {l u v r : List NodeId}

/-! ## Anchors that are not found -/

section Lookup

variable {p : InsertionPoint} {scope : NodeId}

/-- An insertion point is not found if it is on no node. -/
theorem resolve?_eq_none_iff (wf : d.WellFormed) : p.resolve? d scope = none ↔
    ∀ n ∈ ids (d.treeAt scope), d.attribute? n Word.insertionAttribute ≠ some p.id := by
  have hon : ∀ node ∈ (d.treeAt scope).toList,
      p.isOn node.label = true ↔ d.attribute? node.id Word.insertionAttribute = some p.id := fun node hnode => by
    rw [attribute?, wf.label?_of_mem_treeAt hnode, Option.bind_some, InsertionPoint.isOn, beq_iff_eq]
  rw [InsertionPoint.resolve?, Option.map_eq_none_iff, List.find?_eq_none]
  refine ⟨fun h n hn => ?_, fun h node hnode => ?_⟩
  · obtain ⟨node, hnode, rfl⟩ := List.mem_map.mp hn
    exact fun hp => h node hnode ((hon node hnode).mpr hp)
  · exact fun hp => h node.id (List.mem_map_of_mem hnode) ((hon node hnode).mp hp)

end Lookup

/-- Whether an insertion point is on no node but `A`, which has no parent. -/
structure Stray (d : Document) (p : InsertionPoint) (A : NodeId) : Prop where
  mem_ids : A ∈ d.ids
  parent?_eq : d.parent? A = none
  eq_of_attribute? : ∀ n, d.attribute? n Word.insertionAttribute = some p.id → n = A

namespace Stray

variable {p : InsertionPoint}

/-- What has no parent is not below a node. -/
theorem not_mem_treeAt (h : Stray d p A) (wf : d.WellFormed) (hn : n ≠ A) : A ∉ ids (d.treeAt n) := by
  intro hmem
  have hbelow := wf.mem_descendants_iff_isBelow.mp (wf.mem_descendants_iff.mpr ⟨hmem, Ne.symm hn⟩)
  obtain ⟨q, hq, -⟩ := Relation.TransGen.head'_iff.mp hbelow
  rw [h.parent?_eq] at hq
  cases hq

/-- So the insertion point is not found from elsewhere. -/
theorem resolve?_eq_none (h : Stray d p A) (wf : d.WellFormed) (hn : n ≠ A) : p.resolve? d n = none :=
  (resolve?_eq_none_iff wf).mpr fun _ hm hp => h.not_mem_treeAt wf hn (h.eq_of_attribute? _ hp ▸ hm)

theorem retouches {R : NodeId → Prop} (h : Stray d p A) (hd : d.Retouches R d') : Stray d' p A where
  mem_ids := hd.grows.mem_ids A h.mem_ids
  parent?_eq := (hd.parent?_eq A h.mem_ids).elim (·.trans h.parent?_eq) And.right
  eq_of_attribute? n hn := h.eq_of_attribute? n ((hd.attribute?_eq n).symm.trans hn)

end Stray

namespace Block

/-! ## Placing -/

/-- A block from row to row can be placed. -/
theorem exists_placeOne_rows (number : Nat) (block : Block) (mid : List NodeId) (wf : d.WellFormed)
    (hT : d.isNamed T Word.table = true) (hchildren : d.children T = l ++ (mid ++ r))
    (ha : mid.head? = some a) (hb : mid.getLast? = some b) (hrow : d.isNamed a Word.row = true)
    (hrow' : d.isNamed b Word.row = true) (h : Spans d block.start.node block.stop.node a b) :
    ∃ first last d', placeOne number block d = .ok ⟨number, block, first, last⟩ d' ∧
      Surrounds d d' T l mid r ⟨number, block, first, last⟩ := by
  have hmem : ∀ {c}, c ∈ mid → c ∈ d.children T := fun hc => by
    rw [hchildren]
    exact List.mem_append_right _ (List.mem_append_left _ hc)
  have hplace := place?_rows wf hT (mem_childrenNamed.mpr ⟨hmem (List.mem_of_mem_head? ha), hrow⟩)
    (mem_childrenNamed.mpr ⟨hmem (List.mem_of_getLast? hb), hrow'⟩) h
  cases hrun : placeOne number block d with
  | error e d' =>
    rw [placeOne_eq hplace] at hrun
    cases hrun
  | ok p d' =>
    obtain ⟨hsurrounds, rfl, rfl⟩ := placeOne_rows wf hT hchildren ha hb hrow hrow' h hrun
    exact ⟨p.first, p.last, d', rfl, hsurrounds⟩

/-- A block with two sections. -/
def withSections (kind kind' : Directive.Kind) (o s c : Marker) : Forest Block :=
  tree ⟨kind, o, c⟩ (cons ⟨.content, o, s⟩ nil (tree ⟨kind', s, c⟩ nil))

/-- Whether a block was placed around the children `u ++ b :: v` of `T`, and both of its sections around `b`: the
bounds of the block are `first` and `last`, those of its sections `first₁` and `last₁`, `first₂` and `last₂`. -/
structure Overlaps (d d' : Document) (kind' : Directive.Kind) (T b : NodeId) (l u v r : List NodeId)
    (first last first₁ last₁ first₂ last₂ : NodeId) : Prop where
  grows : d.Grows d'
  children_eq : d'.children T =
    l ++ first :: first₁ :: (u ++ first₂ :: b :: last₁ :: (v ++ last₂ :: last :: r))
  label?_first₁ : d'.label? first₁ = some (anchorLabel Word.row .content 1)
  eq_first₂ : ∀ n, d'.attribute? n Word.insertionAttribute = some (startPoint kind' 2).id → n = first₂

/-- The insertion points after a block has been placed. -/
theorem Surrounds.attribute?_cases {mid : List NodeId} {p : Placed} {value : String}
    (h : Surrounds d d' T l mid r p) (hn : d'.attribute? n Word.insertionAttribute = some value) :
    d.attribute? n Word.insertionAttribute = some value ∨
      n = p.first ∧ value = (startPoint p.block.kind p.number).id ∨
      n = p.last ∧ value = (endPoint p.block.kind p.number).id := by
  have hvalue : ∀ {id : String}, d'.label? n = some ((Label.element ⟨Word.row, []⟩).setAttribute
      Word.insertionAttribute id) → value = id := fun hl => by
    rw [attribute?, hl, Option.bind_some, Label.attribute?_setAttribute_self rfl] at hn
    exact (Option.some.inj hn).symm
  obtain ⟨lbl, hl, -⟩ := Option.bind_eq_some_iff.mp hn
  rcases h.mem_or_eq n (h.grows.wellFormed.mem_ids_of_label? hl) with hmem | rfl | rfl
  · exact .inl (by rwa [attribute?, ← h.label?_eq hmem])
  · exact .inr (.inl ⟨rfl, hvalue h.label?_first⟩)
  · exact .inr (.inr ⟨rfl, hvalue h.label?_last⟩)

/-- A block whose separator is in a row between its first and its last one can be placed with its sections. -/
theorem placeAll_sections (kind kind' : Directive.Kind) {o s c : Marker} (wf : d.WellFormed)
    (hT : d.isNamed T Word.table = true) (hchildren : d.children T = l ++ ((u ++ b :: v) ++ r))
    (ha : u.head? = some a) (he : v.getLast? = some e) (hrow : ∀ n ∈ [a, b, e], d.isNamed n Word.row = true)
    (hstart : d.IsBelow o.node a) (hsep : d.IsBelow s.node b) (hstop : d.IsBelow c.node e)
    (hnone : ∀ n, d.attribute? n Word.insertionAttribute = none) :
    ∃ first last first₁ last₁ first₂ last₂ d',
      placeAll ((withSections kind kind' o s c).number 0) d =
        .ok (tree ⟨0, ⟨kind, o, c⟩, first, last⟩ (cons ⟨1, ⟨.content, o, s⟩, first₁, last₁⟩ nil
          (tree ⟨2, ⟨kind', s, c⟩, first₂, last₂⟩ nil))) d' ∧
      Overlaps d d' kind' T b l u v r first last first₁ last₁ first₂ last₂ := by
  -- The three rows are different children of the table.
  have hau := List.mem_of_mem_head? ha
  have hev := List.mem_of_getLast? he
  have hmem : ∀ n ∈ [a, b, e], n ∈ d.children T := by
    simp only [List.forall_mem_cons, List.not_mem_nil, false_implies, implies_true, and_true, hchildren]
    simp [hau, hev]
  have hnd := wf.nodup_children T
  rw [hchildren, List.nodup_append, List.nodup_append, List.nodup_append, List.nodup_cons] at hnd
  obtain ⟨-, ⟨⟨-, ⟨hbv, -⟩, huv⟩, -, -⟩, -⟩ := hnd
  have hab : a ≠ b := huv a hau b (List.mem_cons_self ..)
  have hae : a ≠ e := huv a hau e (List.mem_cons_of_mem _ hev)
  have hbe : b ≠ e := fun heq => hbv (heq ▸ hev)
  have hTmem := wf.mem_ids_of_isNamed hT
  have hids := fun n hn => wf.mem_ids_of_mem_children (hmem n hn)
  have hlast : ∀ w : List NodeId, (w ++ v).getLast? = some e := fun w => by
    rw [List.getLast?_append, he]
    rfl
  -- The block, and then its sections.
  obtain ⟨first, last, d₁, h₁, hs₁⟩ := exists_placeOne_rows 0 ⟨kind, o, c⟩ (u ++ b :: v) wf hT hchildren
    (by simp [ha]) (by rw [← List.singleton_append, ← List.append_assoc]; exact hlast _)
    (hrow a (by simp)) (hrow e (by simp)) (.rows hae hstart hstop)
  have hnamed₁ : ∀ n ∈ [a, b, e], d₁.isNamed n Word.row = true := fun n hn =>
    (hs₁.isNamed_eq (hids n hn) _).trans (hrow n hn)
  obtain ⟨first₁, last₁, d₂, h₂, hs₂⟩ := exists_placeOne_rows 1 ⟨.content, o, s⟩ (u ++ [b])
    (l := l ++ [first]) (r := v ++ last :: r) hs₁.grows.wellFormed
    ((hs₁.isNamed_eq hTmem _).trans hT) (by rw [hs₁.children_eq]; simp) (by simp [ha])
    (by simp) (hnamed₁ a (by simp)) (hnamed₁ b (by simp))
    (.rows hab (hs₁.isBelow wf hstart) (hs₁.isBelow wf hsep))
  have hs₁₂ := fun n hn => hs₁.grows.mem_ids n (hids n hn)
  have hbelow := fun {m n : NodeId} (hm : d.IsBelow m n) => hs₂.isBelow hs₁.grows.wellFormed (hs₁.isBelow wf hm)
  obtain ⟨first₂, last₂, d₃, h₃, hs₃⟩ := exists_placeOne_rows 2 ⟨kind', s, c⟩ (b :: last₁ :: v)
    (l := l ++ first :: first₁ :: u) (r := last :: r) hs₂.grows.wellFormed
    ((hs₂.isNamed_eq (hs₁.grows.mem_ids T hTmem) _).trans ((hs₁.isNamed_eq hTmem _).trans hT))
    (by rw [hs₂.children_eq]; simp) rfl (hlast [b, last₁])
    ((hs₂.isNamed_eq (hs₁₂ b (by simp)) _).trans (hnamed₁ b (by simp)))
    ((hs₂.isNamed_eq (hs₁₂ e (by simp)) _).trans (hnamed₁ e (by simp)))
    (.rows hbe (hbelow hsep) (hbelow hstop))
  refine ⟨first, last, first₁, last₁, first₂, last₂, d₃, ?_, hs₁.grows.trans (hs₂.grows.trans hs₃.grows), ?_, ?_,
    fun n hn => ?_⟩
  · exact placeAll_cons h₁ (placeAll_cons h₂ rfl (placeAll_cons h₃ rfl rfl)) rfl
  · rw [hs₃.children_eq]
    simp
  · exact (hs₃.label?_eq (hs₂.grows.wellFormed.mem_ids_of_label? hs₂.label?_first)).trans hs₂.label?_first
  · -- No other block has this insertion point, nor had any node before.
    rcases hs₃.attribute?_cases hn with hn | ⟨rfl, -⟩ | ⟨-, hid⟩
    · rcases hs₂.attribute?_cases hn with hn | ⟨-, hid⟩ | ⟨-, hid⟩
      · rcases hs₁.attribute?_cases hn with hn | ⟨-, hid⟩ | ⟨-, hid⟩
        · rw [hnone] at hn
          cases hn
        · cases id_startPoint_inj hid
        · cases id_endPoint_ne _ _ _ _ hid.symm
      · cases id_startPoint_inj hid
      · cases id_endPoint_ne _ _ _ _ hid.symm
    · rfl
    · cases id_endPoint_ne _ _ _ _ hid.symm

/-! ## Taking the contents out -/

/-- Whether the anchor of the first section of a block is in the content of the block, and that of the second one is
on a node `A` without parent that is not. -/
structure SectionsOut (d : Document) (t t₁ t₂ : Template) (A : NodeId) : Prop where
  wellFormed : d.WellFormed
  mem_ids : ∀ n ∈ t.content, n ∈ d.ids
  found : checkAnchor d t t₁ = .ok ()
  stray : Stray d t₂.anchor A
  not_mem : A ∉ t.content

/-- What is taken out of a block and its sections if they share the row `b`. -/
theorem Overlaps.extractAll_eq {kind' : Directive.Kind} (kind : Directive.Kind) (o s c : Marker)
    {first last first₁ last₁ first₂ last₂ : NodeId}
    (h : Overlaps d d' kind' T b l u v r first last first₁ last₁ first₂ last₂) :
    ∃ t t₁ t₂ d'', extractAll (tree ⟨0, ⟨kind, o, c⟩, first, last⟩ (cons ⟨1, ⟨.content, o, s⟩, first₁, last₁⟩ nil
        (tree ⟨2, ⟨kind', s, c⟩, first₂, last₂⟩ nil))) d' = (tree t (cons t₁ nil (tree t₂ nil)), d'') ∧
      t.block = ⟨kind, o, c⟩ ∧ t₁.block = ⟨.content, o, s⟩ ∧ t₂.block = ⟨kind', s, c⟩ ∧ t₂.number = 2 ∧
      SectionsOut d'' t t₁ t₂ first₂ := by
  have wf := h.grows.wellFormed
  have hchildren := h.children_eq
  have hnd := wf.nodup_children T
  -- The first section takes the anchor of the second one along.
  have hsection : d'.between first₁ last₁ = u ++ [first₂, b] :=
    wf.between_of_children (p := T) (l := l ++ [first]) (r := v ++ last₂ :: last :: r) (by rw [hchildren]; simp)
  have hmoves := wf.moves_detachAll (u ++ [first₂, b])
  have hout : (d'.detachAll (u ++ [first₂, b])).children T = _ :=
    wf.children_detachAll_of_eq (l := l ++ [first, first₁]) (r := last₁ :: (v ++ last₂ :: last :: r))
      (by rw [hchildren]; simp)
  have hnone : (d'.detachAll (u ++ [first₂, b])).parent? first₂ = none := parent?_detachAll wf (.inl (by simp))
  obtain ⟨d₁, hd₁⟩ : ∃ d₁, d'.detachAll (u ++ [first₂, b]) = d₁ := ⟨_, rfl⟩
  rw [hd₁] at hmoves hout hnone
  have wf₁ := hmoves.grows.wellFormed
  -- So nothing is left between that and the end of its section.
  have hempty : d₁.between first₂ last₂ = [] := by
    rw [between, index?, siblings, hnone]
    rfl
  have hblock : d₁.between first last = first₁ :: last₁ :: (v ++ [last₂]) :=
    wf₁.between_of_children (p := T) (l := l) (r := r) (by rw [hout]; simp)
  have hmoves' := wf₁.moves_detachAll (first₁ :: last₁ :: (v ++ [last₂]))
  have hlabel := fun n => (hmoves'.label?_eq n).trans (hmoves.label?_eq n)
  have hgrows := hmoves.grows.trans hmoves'.grows
  refine ⟨⟨0, ⟨kind, o, c⟩, first₁ :: last₁ :: (v ++ [last₂])⟩, ⟨1, ⟨.content, o, s⟩, u ++ [first₂, b]⟩,
    ⟨2, ⟨kind', s, c⟩, []⟩, d₁.detachAll (first₁ :: last₁ :: (v ++ [last₂])), ?_, rfl, rfl, rfl, rfl,
    hgrows.wellFormed, fun n hn => hgrows.mem_ids n (wf.mem_ids_of_mem_children (p := T) ?_), ?_,
    ⟨hgrows.mem_ids _ (wf.mem_ids_of_mem_children (p := T) (by simp [hchildren])),
      parent?_detachAll wf₁ (.inr hnone), fun n hn => h.eq_first₂ n ?_⟩, ?_⟩
  · have hnil : d₁.detachAll [] = d₁ := rfl
    simp only [tree, extractAll, hsection, hd₁, hempty, hnil, hblock]
  · rw [hchildren]
    simp only [List.mem_cons, List.mem_append, List.not_mem_nil, or_false] at hn ⊢
    tauto
  · obtain ⟨node, cs, hid, htree⟩ := hgrows.wellFormed.exists_treeAt
      (hgrows.wellFormed.mem_ids_of_label? ((hlabel first₁).trans h.label?_first₁))
    have hmem : node ∈ ((d₁.detachAll (first₁ :: last₁ :: (v ++ [last₂]))).treeAt first₁).toList := by
      simp [htree, tree, toList]
    have hl := hgrows.wellFormed.label?_of_mem_treeAt hmem
    rw [hid, hlabel, h.label?_first₁] at hl
    refine checkAnchor_eq_ok_iff_isOn.mpr ⟨node, mem_toList_treesAt.mpr ⟨first₁, by simp, hmem⟩, ?_⟩
    rw [← Option.some.inj hl, InsertionPoint.isOn, anchorLabel, Label.attribute?_setAttribute_self rfl]
    exact beq_self_eq_true _
  · rw [attribute?, hlabel] at hn
    exact hn
  · rw [hchildren] at hnd
    simp only [List.nodup_append, List.nodup_cons, List.mem_append, List.mem_cons, not_or] at hnd
    simp only [List.mem_cons, List.mem_append, List.not_mem_nil, or_false, not_or]
    grind

/-- So the validation finds that the anchor of the second section is not where it should be. -/
theorem SectionsOut.validate_eq {t t₁ t₂ : Template} (h : SectionsOut d t t₁ t₂ A) :
    validate d (tree t (cons t₁ nil (tree t₂ nil))) = .error (.insertionPointMisplaced t₂.anchor.id t₂.block.name) := by
  have hmissing : checkAnchor d t t₂ = .error (.insertionPointMisplaced t₂.anchor.id t₂.block.name) := by
    rw [checkAnchor, if_neg]
    intro hany
    obtain ⟨n, hn, hfound⟩ := List.any_eq_true.mp hany
    rw [h.stray.resolve?_eq_none h.wellFormed fun he => h.not_mem (he ▸ hn)] at hfound
    cases hfound
  have hchecks : [t₁, t₂].forM (checkAnchor d t) =
      .error (.insertionPointMisplaced t₂.anchor.id t₂.block.name) := by
    rw [List.forM, h.found]
    show [t₂].forM (checkAnchor d t) = _
    rw [List.forM, hmissing]
    rfl
  simp only [tree, validate, roots, hchecks]
  rfl

end Block

end WordTemplate
