import WordTemplate.Proofs.Block.Placement

/-!
# The bounds of a placed block

Placing a block, told by the landmarks of the tree at the root: an anchor comes in behind the start
of the block, and what lies between the two directives can get other nodes above it. `Bounded` says
that the anchor and another node are siblings around exactly those landmarks.

A block is placed in a region: below a node from which no table and no row leads to its directives.

* `placeOne_spec`: a block without another anchor behind its start.
* `Places.placeOne_section`: the main section of a block, which has the same start.
-/

namespace WordTemplate

open Xml Forest

/-! ## Regions -/

/-- Whether a node is neither a table nor a row. -/
def Crumb.isPlain (k : Crumb) : Bool :=
  k.name != some Word.row && k.name != some Word.table

/-- Whether a landmark is below `k`, which is below `c`, with neither a table nor a row between. -/
def InRegion (k : Crumb) (c : List Crumb) (x : Landmark) : Prop :=
  ∃ inner, x.path = inner ++ k :: c ∧ ∀ j ∈ k :: inner, j.isPlain = true

theorem isPlain_crumbOf {node : Node} :
    (crumbOf node).isPlain = true ↔
      node.label.isNamed Word.row = false ∧ node.label.isNamed Word.table = false := by
  simp [Crumb.isPlain, crumbOf, Label.isNamed]

/-- Among landmarks without anchors there is no anchor. -/
theorem isAnchor_eq_false_of_mem_roots {f : Forest Node} {n : Node}
    (h : ∀ x ∈ landmarks f, x.sign.isAnchor = false) (hn : n ∈ f.roots) :
    n.label.isAnchor = false := by
  induction f with
  | nil => simp [roots] at hn
  | cons a as rest _ ih =>
    rw [landmarks_cons] at h
    rcases List.mem_cons.mp hn with rfl | hn
    · rw [← Bool.not_eq_true]
      intro ha
      have := h ⟨n.id, signOf n.label as, []⟩ (by
        rw [landmarks_tree_of_isLandmark as (by simp [Label.isLandmark, ha])]
        simp)
      rw [isAnchor_signOf, ha] at this
      simp at this
    · exact ih (fun x hx => h x (List.mem_append_right _ hx)) hn

/-- A tree that holds a text is not an anchor. -/
theorem isAnchor_eq_false_of_landmarks {a : Node} {as : Forest Node} {u w : List Landmark}
    {x : Landmark} (h : landmarks (tree a as) = u ++ x :: w) (hx : x.sign.isAnchor = false) :
    a.label.isAnchor = false := by
  rw [← Bool.not_eq_true]
  intro ha
  rw [landmarks_tree_of_isLandmark as (by simp [Label.isLandmark, ha])] at h
  have hmem : x ∈ [(⟨a.id, signOf a.label as, []⟩ : Landmark)] := by simp [h]
  obtain rfl : x = _ := by simpa using hmem
  rw [isAnchor_signOf, ha] at hx
  simp at hx

/-- What is above two landmarks in trees side by side is above both trees. -/
theorem suffix_crumbs {up : List (Frame Node)} {a b : Node} {as bs : Forest Node} {x y : Landmark}
    {q : List Crumb} (hx : ∀ i ∈ x.above, i ∈ ids (tree a as))
    (hy : ∀ i ∈ y.above, i ∈ ids (tree b bs))
    (hdis : ∀ i, i ∈ ids (tree a as) → i ∉ ids (tree b bs))
    (hqx : q <:+ (x.below (crumbs up)).path) (hqy : q <:+ (y.below (crumbs up)).path) :
    q <:+ crumbs up := by
  rcases List.suffix_or_suffix_of_suffix hqx (List.suffix_append x.path (crumbs up)) with h | h
  · exact h
  · obtain ⟨t, rfl⟩ := h
    -- Otherwise a node would be above `x` in the first tree and above `y` in the second one.
    have htx : t <:+ x.path := List.suffix_append_self_iff.mp hqx
    have hty : t <:+ y.path := List.suffix_append_self_iff.mp hqy
    cases t with
    | nil => simp
    | cons j t =>
      have hjx : j.node ∈ x.above := List.mem_map_of_mem (htx.mem (by simp))
      have hjy : j.node ∈ y.above := List.mem_map_of_mem (hty.mem (by simp))
      exact absurd (hy _ hjy) (hdis _ (hx _ hjx))

/-- The nodes above a landmark of a region, down from the region. -/
theorem InRegion.of_suffix {k : Crumb} {c p : List Crumb} {x : Landmark} (h : InRegion k c x)
    (hp : p <:+ x.path) (hk : k :: c <:+ p) :
    ∃ inner, p = inner ++ k :: c ∧ ∀ j ∈ k :: inner, j.isPlain = true := by
  obtain ⟨inner, hx, hplain⟩ := h
  obtain ⟨t, ht⟩ := hp
  obtain ⟨inner', rfl⟩ := hk
  refine ⟨inner', rfl, fun j hj => hplain j ?_⟩
  have : t ++ inner' = inner := by
    rw [hx, ← List.append_assoc] at ht
    exact List.append_cancel_right ht
  rcases List.mem_cons.mp hj with rfl | hj
  · simp
  · simp [← this, hj]

theorem InRegion.suffix {k : Crumb} {c : List Crumb} {x : Landmark} (h : InRegion k c x) :
    k :: c <:+ x.path := by
  obtain ⟨inner, hx, -⟩ := h
  exact ⟨inner, hx.symm⟩

/-! ## Bounds -/

/-- Whether a landmark is below the nodes `q`, but neither at nor below `last`. -/
def Inside (q : List Crumb) (last : NodeId) (z : Landmark) : Prop :=
  last ∉ z.node :: z.above ∧ q <:+ z.path

/-- Whether the anchor `α` and the node `last` are siblings around the landmarks `v`, and `e`, at or
below `last`, comes behind them. -/
structure Bounded (α : Landmark) (v : List Landmark) (e : Landmark) (last : NodeId) : Prop where
  path_ne_nil : α.path ≠ []
  end_eq : ∃ inner, e.node :: e.above = inner ++ last :: α.above
  between : ∀ z ∈ v, Inside α.path last z

/-- Whether, behind a start `s` and the anchors `K`, the landmarks `inside` are in the siblings that
follow the one with the start. Nothing else is between that one and the anchors. -/
structure Opened (d : Document) (root : NodeId) (u : List Landmark) (s : Landmark)
    (K inside : List Landmark) : Prop where
  exists_eq : ∃ (fr : Frame Node) (up : List (Frame Node)) (left : Forest Node) (a : Node)
    (as anchors rest : Forest Node) (u₁ : List Landmark) (x : Landmark) (t : List Landmark),
    d.treeAt root = wrap (fr :: up) (left ++ cons a as (anchors ++ rest)) ∧
    landmarks (tree a as) = u₁ ++ [x] ∧ EndsAt x.node (tree a as) ∧
    (∀ n ∈ anchors.roots, n.label.isAnchor = true) ∧
    (landmarks rest).map (·.below (crumbs (fr :: up))) = inside ++ t ∧
    s = x.below (crumbs (fr :: up)) ∧
    K = (landmarks anchors).map (·.below (crumbs (fr :: up))) ∧
    u = landmarksBefore (fr :: up) ++ (landmarks left ++ u₁).map (·.below (crumbs (fr :: up)))

/-- What placing a block between `s` and `e` does: the anchor `α` comes in behind `s` and the
anchors `K`, and `g` says what gets other nodes above it. -/
structure Places (d d' : Document) (root : NodeId) (mute : List String) (k : Crumb)
    (c : List Crumb) (number : Nat) (block : Block) (u : List Landmark) (s : Landmark)
    (K v : List Landmark) (e : Landmark) (w : List Landmark) (α : Landmark) (last : NodeId)
    (g : NodeId → NodeId) : Prop where
  run : Block.placeOne number block d = .ok ⟨number, block, α.node, last⟩ d'
  grows : d.Grows d'
  sound : Sound mute (labels (d'.treeAt root))
  landmarks_eq : landmarks (d'.treeAt root) =
    u ++ s :: (K ++ α :: (v.map (·.relocate g) ++ e :: w))
  sign_eq : α.sign = .anchor (Block.startPoint block.kind number).id
  fresh_le : d.fresh ≤ α.node.number
  suffix_start : α.path <:+ s.path
  suffix_end : α.path <:+ e.path
  common : ∀ q, q <:+ s.path → q <:+ e.path → q <:+ α.path
  last_start : last ∉ s.node :: s.above
  relocates : ∀ i, g i = i ∨ d.fresh ≤ (g i).number
  fixed : ∀ i ∈ α.above, g i = i
  bounded : Bounded α (v.map (·.relocate g)) e last
  last_mem : last ∈ d.ids
  frame : ∃ cs, d'.treeAt root = (d.treeAt root).replace (·.id == k.node) fun node _ => tree node cs
  opened : Opened d' root u s (K ++ [α]) (v.map (·.relocate g) ++ [e])

theorem relocate_below_eq {g h : NodeId → NodeId} {outer : List Crumb} {z : Landmark}
    (hout : ∀ i ∈ outer.map Crumb.node, h i = i) (hz : ∀ i ∈ z.above, h i = g i) :
    (z.below outer).relocate h = (z.relocate g).below outer := by
  have : outer.map (Crumb.relocate h) = outer := by
    conv_rhs => rw [← List.map_id outer]
    refine List.map_congr_left fun c hc => ?_
    simp only [Crumb.relocate, id_eq]
    rw [hout c.node (List.mem_map_of_mem hc)]
  rw [relocate_below, this, relocate_congr hz]

/-- The nodes from a landmark of a tree up to the root of the tree. -/
theorem exists_chain {b : Node} {bs : Forest Node} {y : Landmark}
    (h : y ∈ landmarks (tree b bs)) : ∃ inner, y.node :: y.above = inner ++ [b.id] := by
  by_cases hl : b.label.isLandmark = true
  · rw [landmarks_tree_of_isLandmark bs hl] at h
    obtain rfl : y = _ := by simpa using h
    exact ⟨[], rfl⟩
  · rw [Bool.not_eq_true] at hl
    rw [landmarks_tree bs hl] at h
    obtain ⟨z, -, rfl⟩ := List.mem_map.mp h
    exact ⟨z.node :: z.above, by simp [crumbOf]⟩

/-- A spot below nodes of which one is `k`. -/
theorem exists_replace {f : Forest Node} {up : List (Frame Node)} {X : Forest Node} {k : Crumb}
    {inner c : List Crumb} (hnd : (ids f).Nodup) (hf : f = wrap up X)
    (hup : crumbs up = inner ++ k :: c) (Y : Forest Node) :
    ∃ cs, wrap up Y = f.replace (·.id == k.node) fun node _ => tree node cs := by
  obtain ⟨up₁, t, rfl, -, ht⟩ := List.map_eq_append_iff.mp hup
  obtain ⟨fk, up₂, rfl, rfl, -⟩ := List.map_eq_cons_iff.mp ht
  have hf' : f = wrap up₂ (fk.before ++ cons fk.value (wrap up₁ X) fk.after) := by
    rw [hf, wrap_append]
    rfl
  refine ⟨wrap up₁ Y, ?_⟩
  have := replace_spot hnd hf' fun node _ => tree node (wrap up₁ Y)
  rw [show (crumbOf fk.value).node = fk.value.id from rfl, this, wrap_append]
  rfl

section Places

variable {d : Document} {root : NodeId} {mute : List String} {k : Crumb} {c : List Crumb}
  {number : Nat} {block : Block}

theorem places_of_ends (number : Nat) {block : Block} {fr : Frame Node} {up : List (Frame Node)}
    {left anchors mid right as bs : Forest Node} {a b : Node} {u₁ v₁ v₂ w₂ : List Landmark}
    {x y : Landmark}
    (h : Block.Ends d root mute fr up left a as anchors mid b bs right u₁ x v₁ v₂ y w₂)
    (hmute : Word.paragraph ∉ mute) (hstart : block.start.node = x.node)
    (hstop : block.stop.node = y.node) {inner : List Crumb}
    (hup : crumbs (fr :: up) = inner ++ k :: c) :
    (anchors = nil ∨ v₁ = []) ∧ ∃ α last g d', Places d d' root mute k c number block
      (landmarksBefore (fr :: up) ++ (landmarks left ++ u₁).map (·.below (crumbs (fr :: up))))
      (x.below (crumbs (fr :: up))) ((landmarks anchors).map (·.below (crumbs (fr :: up))))
      ((v₁ ++ (landmarks mid ++ v₂)).map (·.below (crumbs (fr :: up))))
      (y.below (crumbs (fr :: up)))
      ((w₂ ++ landmarks right).map (·.below (crumbs (fr :: up))) ++ landmarksAfter (fr :: up))
      α last g := by
  have wf := h.wellFormed
  have hF := h.treeAt_root
  have hloud : ¬ Quiet (labels (left ++ cons a as (anchors ++ (mid ++ cons b bs right)))) := by
    rw [← landmarks_eq_nil_iff, landmarks_append, landmarks_cons, h.landmarks_a]
    simp
  have hopen : IsOpen (fr :: up) := fun fr' hfr => ((hF ▸ h.sound).open_of_wrap hloud fr' hfr).1
  obtain ⟨n, δ, δ', kas, kbs, m, d', hrun, hgrows, hn, hδ, hlower, hkas, hends, hm, hδ', hkbs, hF',
    hs'⟩ := Block.placeOne_fork h hmute number hstart hstop
  obtain ⟨g, hg, hgone⟩ := hδ.landmarks_gone
  obtain ⟨g', hg', hgone'⟩ := hδ'.landmarks_gone
  -- The identifiers of the parts of the tree are distinct.
  have hnd := wf.nodup_treeAt root
  rw [hF, ids_wrap] at hnd
  obtain ⟨-, hin, hout⟩ := List.nodup_append.mp hnd
  have hin := (List.nodup_append.mp hin).1
  simp only [ids_append, ids_cons, ← List.cons_append] at hin
  obtain ⟨-, hin, -⟩ := List.nodup_append.mp hin
  obtain ⟨hnda, hin, hdis⟩ := List.nodup_append.mp hin
  obtain ⟨-, hin, hdis₁⟩ := List.nodup_append.mp hin
  obtain ⟨-, hin, hdis₂⟩ := List.nodup_append.mp hin
  have hsa : Sound mute (labels (tree a as)) := by
    have := (hF ▸ h.sound).of_wrap
    rw [labels_append, labels_cons, sound_append, sound_cons] at this
    exact this.2.1
  have hx : ∀ i ∈ x.above, i ∈ ids (tree a as) :=
    (mem_ids_of_mem_landmarks (x := x) (by simp [h.landmarks_a])).2
  have hy : ∀ i ∈ y.above, i ∈ ids (tree b bs) :=
    (mem_ids_of_mem_landmarks (x := y) (by simp [h.landmarks_b])).2
  have hv₁ : anchors = nil ∨ v₁ = [] := by
    refine hlower.imp_right fun hl => ?_
    rw [hl, landmarks_nil] at hgone
    exact List.map_eq_nil_iff.mp hgone.symm
  rw [← ids_tree a as, ← ids_tree b bs] at hdis
  rw [← ids_tree b bs] at hdis₂
  have hab : ∀ i ∈ ids (tree a as), i ∉ ids (tree b bs) := fun i ha hb =>
    hdis i ha i (List.mem_append_right _ (List.mem_append_right _ (List.mem_append_left _ hb))) rfl
  have hmida : ∀ i ∈ ids mid, i ∉ ids (tree a as) := fun i hm ha =>
    hdis i ha i (List.mem_append_right _ (List.mem_append_left _ hm)) rfl
  have hmidb : ∀ i ∈ ids mid, i ∉ ids (tree b bs) := fun i hm hb =>
    hdis₂ i hm i (List.mem_append_left _ hb) rfl
  have habove : ∀ i ∈ (crumbs (fr :: up)).map Crumb.node,
      i ∈ (opening (fr :: up)).map Node.id := by
    intro i hi
    simp only [crumbs, List.map_map, List.mem_map] at hi
    obtain ⟨fr', hfr, rfl⟩ := hi
    exact List.mem_map_of_mem (value_mem_opening hfr)
  have hca : ∀ i ∈ (crumbs (fr :: up)).map Crumb.node, i ∉ ids (tree a as) ∧ i ∉ ids (tree b bs) := by
    intro i hi
    constructor <;> intro hmem <;> refine hout i (habove i hi) i ?_ rfl <;>
      simp only [ids_tree, ids_append, ids_cons, List.mem_append, List.mem_cons] at hmem ⊢ <;> tauto
  -- One function for both divisions.
  let G : NodeId → NodeId := fun i =>
    if i ∈ x.above then g i else if i ∈ y.above then g' i else i
  have hGc : ∀ i ∈ (crumbs (fr :: up)).map Crumb.node, G i = i := by
    intro i hi
    simp only [G]
    rw [if_neg fun h => (hca i hi).1 (hx i h), if_neg fun h => (hca i hi).2 (hy i h)]
  have hGa : ∀ z ∈ v₁, ∀ i ∈ z.above, G i = g i := by
    intro z hz i hi
    have hia := (mem_ids_of_mem_landmarks (f := tree a as) (x := z) (by simp [h.landmarks_a, hz])).2 i hi
    simp only [G]
    split
    · rfl
    · next hix => rw [if_neg fun h => hab i hia (hy i h), hg.eq_self hix]
  have hGb : ∀ z ∈ v₂, ∀ i ∈ z.above, G i = g' i := by
    intro z hz i hi
    have hib := (mem_ids_of_mem_landmarks (f := tree b bs) (x := z) (by simp [h.landmarks_b, hz])).2 i hi
    simp only [G]
    rw [if_neg fun h => hab i (hx i h) hib]
    split
    · rfl
    · next hiy => rw [hg'.eq_self hiy]
  have hGmid : ∀ z ∈ landmarks mid, ∀ i ∈ z.above, G i = id i := by
    intro z hz i hi
    have him := (mem_ids_of_mem_landmarks hz).2 i hi
    simp only [G]
    rw [if_neg fun h => hmida i him (hx i h), if_neg fun h => hmidb i him (hy i h)]
    rfl
  have hM : ((v₁ ++ (landmarks mid ++ v₂)).map (·.below (crumbs (fr :: up)))).map (·.relocate G) =
      (landmarks (δ.lower ++ (mid ++ δ'.lower))).map (·.below (crumbs (fr :: up))) := by
    simp only [landmarks_append, hgone, hgone', List.map_append, List.map_map]
    congr 1
    · exact List.map_congr_left fun z hz => relocate_below_eq hGc (hGa z hz)
    congr 1
    · refine List.map_congr_left fun z hz => ?_
      have := relocate_below_eq hGc (hGmid z hz)
      rwa [relocate_id] at this
    · exact List.map_congr_left fun z hz => relocate_below_eq hGc (hGb z hz)
  have hla : landmarks (tree a kas) = u₁ ++ [x] := hkas ▸ hδ.landmarks_kept
  have hlb : landmarks (tree (Block.withEnd block.kind number b) kbs) = y :: w₂ := by
    rw [Block.landmarks_withEnd h.b_eq, ← hkbs, hδ'.landmarks_kept]
  have hanchor := Block.landmarks_anchor Word.paragraph n block.kind number
  -- The parts of the new tree are distinct too.
  have hnd' := hgrows.wellFormed.nodup_treeAt root
  rw [hF', ids_wrap] at hnd'
  obtain ⟨-, hin', hout'⟩ := List.nodup_append.mp hnd'
  have hin' := (List.nodup_append.mp hin').1
  simp only [ids_append, ids_cons, ← List.cons_append] at hin'
  have hin' := (List.nodup_append.mp (List.nodup_append.mp hin').2.1).2.1
  have hin' := (List.nodup_append.mp (List.nodup_append.mp hin').2.1).2.1
  have hdis' := (List.nodup_append.mp hin').2.2
  refine ⟨hv₁, ⟨n, .anchor (Block.startPoint block.kind number).id, crumbs (fr :: up)⟩, b.id, G, d',
    ?_⟩
  exact
    { run := hrun
      grows := hgrows
      sound := hs'
      landmarks_eq := by
        rw [hF', landmarks_wrap hopen, hM]
        simp only [landmarks_append, landmarks_cons a kas, landmarks_cons ⟨n, _⟩ nil,
          landmarks_cons (Block.withEnd block.kind number b) kbs, hla, hlb, hanchor]
        simp [Landmark.below]
      sign_eq := rfl
      fresh_le := hn
      suffix_start := List.suffix_append _ _
      suffix_end := List.suffix_append _ _
      common := fun q hq hq' => suffix_crumbs hx hy hab hq hq'
      last_start := by
        rw [Landmark.above_below, Landmark.below_node, ← List.cons_append, List.mem_append]
        rintro (hmem | hmem)
        · refine hab b.id ?_ (by simp)
          rcases List.mem_cons.mp hmem with he | hmem
          · exact he ▸ (mem_ids_of_mem_landmarks (x := x) (by simp [h.landmarks_a])).1
          · exact hx _ hmem
        · exact (hca _ hmem).2 (by simp)
      relocates := by
        intro i
        simp only [G]
        split
        · exact (hg i).imp_right And.right
        · split
          · exact (hg' i).imp_right fun h => Nat.le_trans hm h.2
          · exact .inl rfl
      fixed := hGc
      bounded := by
        refine ⟨by simp, ?_, ?_⟩
        · obtain ⟨chain, hchain⟩ := exists_chain (show y ∈ landmarks (tree b bs) by simp [h.landmarks_b])
          refine ⟨chain, ?_⟩
          rw [Landmark.above_below, Landmark.below_node, ← List.cons_append, hchain]
          simp [Landmark.above]
        · intro z' hz'
          rw [hM] at hz'
          obtain ⟨z, hz, rfl⟩ := List.mem_map.mp hz'
          obtain ⟨hzn, hza⟩ := mem_ids_of_mem_landmarks hz
          refine ⟨fun hmem => ?_, List.suffix_append _ _⟩
          have hlast : b.id ∈ ids (δ.lower ++ (mid ++ δ'.lower)) →  False := fun hb =>
            hdis' b.id (by simpa using hb) b.id (by simp [Block.withEnd]) rfl
          rw [Landmark.above_below, Landmark.below_node, ← List.cons_append, List.mem_append] at hmem
          rcases hmem with hmem | hmem
          · rcases List.mem_cons.mp hmem with he | hmem
            · exact hlast (he ▸ hzn)
            · exact hlast (hza _ hmem)
          · exact (hca _ hmem).2 (by simp)
      last_mem := wf.mem_ids_of_mem_treeAt (n := root) (by
        rw [hF, ids_wrap]
        simp)
      frame := by
        rw [hF']
        exact exists_replace (wf.nodup_treeAt root) hF hup _
      opened := by
        refine ⟨fr, up, left, a, kas, anchors ++ tree ⟨n, Block.anchorLabel Word.paragraph block.kind number⟩ nil,
          (δ.lower ++ (mid ++ δ'.lower)) ++ cons (Block.withEnd block.kind number b) kbs right, u₁, x,
          (w₂ ++ landmarks right).map (·.below (crumbs (fr :: up))), ?_, hla, hkas ▸ hends, ?_, ?_,
          rfl, ?_, rfl⟩
        · rw [hF', append_assoc anchors]
          rfl
        · intro m hm
          rw [roots_append, List.mem_append] at hm
          rcases hm with hm | hm
          · exact h.anchors_eq m hm
          · obtain rfl : m = _ := by simpa using hm
            exact Block.isAnchor_anchorLabel _ _ _
        · rw [hM]
          simp only [landmarks_append, landmarks_cons (Block.withEnd block.kind number b) kbs, hlb]
          simp
        · rw [landmarks_append, hanchor]
          simp [Landmark.below] }

/-- The nearest node above the ends of a block of a region. -/
theorem exists_plain (rest : Forest Node) {up : List (Frame Node)}
    {X left as mid right bs : Forest Node} {a b : Node} {u₁ v₁ v₂ w₂ : List Landmark} {x y : Landmark} (hnd : (ids (wrap up X)).Nodup)
    (hX : X = left ++ cons a as (rest ++ (mid ++ cons b bs right)))
    (ha : landmarks (tree a as) = u₁ ++ x :: v₁) (hb : landmarks (tree b bs) = v₂ ++ y :: w₂)
    (hrx : InRegion k c (x.below (crumbs up))) (hry : InRegion k c (y.below (crumbs up))) :
    ∃ fr up' inner, up = fr :: up' ∧ crumbs up = inner ++ k :: c ∧
      fr.value.label.isNamed Word.row = false ∧ fr.value.label.isNamed Word.table = false := by
  have hdis : ∀ i, i ∈ ids (tree a as) → i ∉ ids (tree b bs) := by
    intro i hia hib
    rw [hX, ids_wrap] at hnd
    have hin := (List.nodup_append.mp (List.nodup_append.mp hnd).2.1).1
    simp only [ids_append, ids_cons, ← List.cons_append] at hin
    refine (List.nodup_append.mp (List.nodup_append.mp hin).2.1).2.2 i (by simpa using hia) i ?_ rfl
    rw [ids_tree] at hib
    exact List.mem_append_right _ (List.mem_append_right _ (List.mem_append_left _ hib))
  have hsuffix := suffix_crumbs (mem_ids_of_mem_landmarks (f := tree a as) (x := x) (by simp [ha])).2
    (mem_ids_of_mem_landmarks (f := tree b bs) (x := y) (by simp [hb])).2 hdis hrx.suffix hry.suffix
  obtain ⟨inner, hup, hplain⟩ := hrx.of_suffix (List.suffix_append x.path (crumbs up)) hsuffix
  cases up with
  | nil => simp at hup
  | cons fr up' =>
    have hhead : (crumbOf fr.value).isPlain = true := by
      cases inner with
      | nil =>
        obtain ⟨hk, -⟩ := List.cons.inj hup
        exact (congrArg Crumb.isPlain hk).trans (hplain k (by simp))
      | cons j inner =>
        obtain ⟨hj, -⟩ := List.cons.inj hup
        exact (congrArg Crumb.isPlain hj).trans (hplain j (by simp))
    exact ⟨fr, up', inner, rfl, hup, isPlain_crumbOf.mp hhead⟩

variable {u v w : List Landmark} {s e : Landmark}

/-- Placing a block with no anchor between its directives. -/
theorem placeOne_spec (number : Nat) (block : Block) (wf : d.WellFormed) (hs : Sound mute (labels (d.treeAt root)))
    (hmute : Word.paragraph ∉ mute)
    (hU : landmarks (d.treeAt root) = u ++ s :: (v ++ e :: w))
    (hrs : InRegion k c s) (hre : InRegion k c e) (hv : ∀ x ∈ v, x.sign.isAnchor = false)
    (he : e.sign.isAnchor = false) (hstart : block.start.node = s.node)
    (hstop : block.stop.node = e.node) :
    ∃ α last g d', Places d d' root mute k c number block u s [] v e w α last g := by
  obtain ⟨⟨up, left, a, as, mid, b, bs, right, u₁, x, v₁, v₂, y, w₂, hF, -, hla, hlb, rfl, rfl, rfl,
    rfl, rfl⟩⟩ := exists_fork hU
  obtain ⟨fr, up, inner, rfl, hcr, hrow, htable⟩ := exists_plain nil
    (hF ▸ wf.nodup_treeAt root) rfl hla hlb hrs hre
  have hends : Block.Ends d root mute fr up left a as nil mid b bs right u₁ x v₁ v₂ y w₂ :=
    { wellFormed := wf
      sound := hs
      treeAt_root := hF
      not_row := hrow
      not_table := htable
      landmarks_a := hla
      landmarks_b := hlb
      anchors_eq := by simp [roots]
      lower_eq := fun h => absurd rfl h
      mid_eq := fun _ n hn => isAnchor_eq_false_of_mem_roots (f := mid) (fun z hz => by
        have := hv (z.below (crumbs (fr :: up))) (List.mem_map_of_mem (by simp [hz]))
        exact this) (List.mem_of_mem_head? hn)
      b_eq := isAnchor_eq_false_of_landmarks hlb he }
  obtain ⟨-, α, last, g, d', hp⟩ := places_of_ends number hends hmute hstart hstop hcr
  exact ⟨α, last, g, d', hp⟩

/-- Placing the main section of a block, behind the start of which stand anchors. -/
theorem placeOne_opened {K inside w' : List Landmark} (wf : d.WellFormed)
    (hs : Sound mute (labels (d.treeAt root))) (hmute : Word.paragraph ∉ mute)
    (hU : landmarks (d.treeAt root) = u ++ s :: (K ++ (v ++ e :: w)))
    (hopened : Opened d root u s K inside) (hinside : inside = v ++ e :: w')
    (hrs : InRegion k c s) (hre : InRegion k c e) (hv : ∀ x ∈ v, x.sign.isAnchor = false)
    (he : e.sign.isAnchor = false) (hstart : block.start.node = s.node)
    (hstop : block.stop.node = e.node) :
    ∃ α last g d', Places d d' root mute k c number block u s K v e w α last g := by
  obtain ⟨fr, up, left, a, as, anchors, rest, u₁, x, t, hF, hla, hends, hanchors, hrest, rfl, rfl,
    rfl⟩ := hopened.exists_eq
  subst hinside
  -- The end of the section is among what follows the anchors.
  obtain ⟨v', t₁, hr, rfl, ht₁⟩ := List.map_eq_append_iff.mp ((List.append_assoc _ _ _).symm ▸ hrest)
  obtain ⟨y, t₂, rfl, rfl, -⟩ := List.map_eq_cons_iff.mp ht₁
  obtain ⟨mid, b, bs, right, v₂, w₂, rfl, hlb, rfl, rfl⟩ := exists_landmark_tree hr
  have hnd := wf.nodup_treeAt root
  have hloud : ¬ Quiet (labels (left ++ cons a as (anchors ++ (mid ++ cons b bs right)))) := by
    rw [← landmarks_eq_nil_iff, landmarks_append, landmarks_cons, hla]
    simp
  have hopen : IsOpen (fr :: up) := fun fr' hfr => ((hF ▸ hs).open_of_wrap hloud fr' hfr).1
  rw [hF] at hnd
  obtain ⟨fr', up', inner, hup, hcr, hrow, htable⟩ := exists_plain anchors hnd rfl hla hlb hrs hre
  obtain ⟨rfl, rfl⟩ := List.cons.inj hup
  have hnda : (ids (tree a as)).Nodup := by
    rw [← (wf.root_not_mem hF).2.1]
    exact wf.nodup_treeAt a.id
  have hends' : Block.Ends d root mute fr up left a as anchors mid b bs right u₁ x [] v₂ y w₂ :=
    { wellFormed := wf
      sound := hs
      treeAt_root := hF
      not_row := hrow
      not_table := htable
      landmarks_a := hla
      landmarks_b := hlb
      anchors_eq := hanchors
      lower_eq := fun _ => (after_of_endsAt d.fresh hnda hends).2.1
      mid_eq := fun _ n hn => isAnchor_eq_false_of_mem_roots (f := mid) (fun z hz => by
        have := hv (z.below (crumbs (fr :: up))) (List.mem_map_of_mem (by simp [hz]))
        exact this) (List.mem_of_mem_head? hn)
      b_eq := isAnchor_eq_false_of_landmarks hlb he }
  obtain ⟨-, α, last, g, d', hp⟩ := places_of_ends number hends' hmute hstart hstop hcr
  refine ⟨α, last, g, d', ?_⟩
  have hw : w = (w₂ ++ landmarks right).map (·.below (crumbs (fr :: up))) ++
      landmarksAfter (fr :: up) := by
    rw [hF, landmarks_wrap hopen] at hU
    simp only [landmarks_append, landmarks_cons a as, landmarks_cons b bs, hla, hlb,
      List.map_append, List.map_cons, List.append_assoc, List.cons_append, List.nil_append, List.append_cancel_left_eq, List.cons.injEq, true_and] at hU
    simpa using hU.symm
  rw [hw]
  exact hp

/-- Placing a keyword: an anchor comes in front of it. -/
theorem placeOne_keyword (number : Nat) (block : Block) (wf : d.WellFormed) (hs : Sound mute (labels (d.treeAt root)))
    (hmute : Word.paragraph ∉ mute) (hU : landmarks (d.treeAt root) = u ++ s :: w)
    (hrs : InRegion k c s) (hsign : s.sign.isAnchor = false) (hstart : block.start.node = s.node)
    (hstop : block.stop.node = s.node) :
    ∃ (α : Landmark) (d' : Document),
      Block.placeOne number block d = .ok ⟨number, block, α.node, s.node⟩ d' ∧ d.Grows d' ∧
      Sound mute (labels (d'.treeAt root)) ∧ landmarks (d'.treeAt root) = u ++ α :: s :: w ∧
      α.sign = .anchor (Block.startPoint block.kind number).id ∧ d.fresh ≤ α.node.number ∧
      α.path = s.path ∧ s.node ∈ d.ids ∧
      ∃ cs, d'.treeAt root =
        (d.treeAt root).replace (·.id == k.node) fun node _ => tree node cs := by
  obtain ⟨up, l, node, cs, r, hF, hopen, hl, rfl, rfl, rfl⟩ := exists_landmark_spot hU
  obtain ⟨inner, hup, hplain⟩ := hrs
  cases up with
  | nil => simp at hup
  | cons fr up =>
    have hhead : (crumbOf fr.value).isPlain = true := by
      cases inner with
      | nil =>
        obtain ⟨hk, -⟩ := List.cons.inj hup
        exact (congrArg Crumb.isPlain hk).trans (hplain k (by simp))
      | cons j inner =>
        obtain ⟨hj, -⟩ := List.cons.inj hup
        exact (congrArg Crumb.isPlain hj).trans (hplain j (by simp))
    obtain ⟨hrow, htable⟩ := isPlain_crumbOf.mp hhead
    have hnode : node.label.isAnchor = false := by
      rw [isAnchor_signOf] at hsign
      exact hsign
    obtain ⟨d₃, hrun, hgrows, hF₃, hs₃⟩ := Block.placeOne_single wf hs hmute hF hrow htable hl hnode
      number hstart hstop
    have hlm : landmarks (tree node cs) = [⟨node.id, signOf node.label cs, []⟩] :=
      landmarks_tree_of_isLandmark cs hl
    refine ⟨⟨d.freshId, .anchor (Block.startPoint block.kind number).id, crumbs (fr :: up)⟩, d₃, hrun,
      hgrows, hs₃, ?_, rfl, Nat.le_refl _, rfl, ?_, ?_⟩
    · rw [hF₃, landmarks_wrap hopen]
      simp only [landmarks_append, landmarks_cons ⟨d.freshId, _⟩ nil, Block.landmarks_anchor,
        landmarks_cons (Block.withEnd block.kind number node) cs, Block.landmarks_withEnd hnode, hlm]
      simp [Landmark.below]
    · exact wf.mem_ids_of_mem_treeAt (n := root) (by rw [hF, ids_wrap]; simp)
    · rw [hF₃]
      exact exists_replace (wf.nodup_treeAt root) hF hup _

end Places

end WordTemplate
