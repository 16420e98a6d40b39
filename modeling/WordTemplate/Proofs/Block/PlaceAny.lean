import WordTemplate.Proofs.Block.PlaceAll
import WordTemplate.Proofs.Word.Detachment

/-!
# Placing blocks anywhere

Blocks may be placed around whole rows of a table. Then other blocks may lie across their bounds, so
that nothing can be said about what the bounds enclose. What is kept in any case: the texts and their
order, all anchors placed before, and that the tree is sound.

* `placeOne_retains`, `placeAll_retains`: placing blocks succeeds and keeps all that.
* `Layout.inOrder`: the blocks of a layout start before they stop.
-/

namespace WordTemplate

open Xml Forest

/-! ## Landmarks without places -/

/-- The landmarks without the nodes above them. -/
def keysOf (ls : List Landmark) : List (NodeId × Sign) :=
  ls.map fun x => (x.node, x.sign)

/-- The texts among the landmarks. -/
def textsOf (ls : List Landmark) : List (NodeId × Sign) :=
  (keysOf ls).filter (!·.2.isAnchor)

@[simp] theorem keysOf_nil : keysOf [] = [] := rfl

@[simp] theorem keysOf_cons (x : Landmark) (ls : List Landmark) :
    keysOf (x :: ls) = (x.node, x.sign) :: keysOf ls := rfl

@[simp] theorem keysOf_append (ls ls' : List Landmark) :
    keysOf (ls ++ ls') = keysOf ls ++ keysOf ls' :=
  List.map_append

@[simp] theorem keysOf_below (ls : List Landmark) (outer : List Crumb) :
    keysOf (ls.map (·.below outer)) = keysOf ls := by
  simp [keysOf, Function.comp_def]

@[simp] theorem keysOf_relocate (ls : List Landmark) (g : NodeId → NodeId) :
    keysOf (ls.map (·.relocate g)) = keysOf ls := by
  simp [keysOf, Function.comp_def, Landmark.relocate]

/-- The anchors of a sound forest are landmarks. -/
theorem mem_keysOf_iff {mute : List String} {f : Forest Node} {n : NodeId} {id : String}
    (h : Sound mute (labels f)) : (n, .anchor id) ∈ keysOf (landmarks f) ↔
      ∃ node ∈ f.toList, node.id = n ∧ node.label.anchorId? = some id := by
  induction f with
  | nil => simp [toList]
  | cons node cs rest ihc ihr =>
    obtain ⟨hl, -, hcs, hrest⟩ := h
    rw [landmarks_cons, keysOf_append, List.mem_append, ihr hrest]
    simp only [toList, List.mem_cons, List.mem_append, or_and_right, exists_or, exists_eq_left]
    by_cases hland : node.label.isLandmark = true
    · -- No anchor is below a landmark.
      have hquiet : ¬ ∃ k ∈ cs.toList, k.id = n ∧ k.label.anchorId? = some id := by
        rintro ⟨k, hk, -, hid⟩
        have hlabel : k.label ∈ (labels cs).toList := by
          rw [labels, toList_map]
          exact List.mem_map_of_mem hk
        rw [anchorId?_eq_none ((hl hland).1 k.label hlabel)] at hid
        cases hid
      have hsign : (n, .anchor id) = (node.id, signOf node.label cs) ↔
          node.id = n ∧ node.label.anchorId? = some id := by
        rw [signOf, Label.anchorId?, Prod.mk.injEq]
        split <;> simp [eq_comm]
      rw [landmarks_tree_of_isLandmark cs hland, keysOf_cons, keysOf_nil, List.mem_singleton, hsign,
        iff_false_intro hquiet, false_or]
    · rw [Bool.not_eq_true] at hland
      rw [landmarks_tree cs hland, keysOf_below, ihc hcs, anchorId?_eq_none hland]
      simp

/-- A change below a node of the scope leaves the label of the scope. -/
theorem label?_of_spot {d d' : Document} {root : NodeId} {fr : Frame Node} {up : List (Frame Node)}
    {X X' : Forest Node} (wf : d.WellFormed) (hF : d.treeAt root = wrap (fr :: up) X)
    (hF' : d'.treeAt root = wrap (fr :: up) X') : d'.label? root = d.label? root := by
  have hmem : root ∈ d.ids := by
    by_contra hn
    have := congrArg toList (hF.symm.trans (wf.treeAt_eq_nil hn))
    simp [toList_wrap, opening, toList] at this
  obtain ⟨node, cs, -, hnode⟩ := wf.exists_treeAt hmem
  obtain ⟨up', hup⟩ := exists_outermost (hF.symm.trans hnode)
  rw [Document.label?, Document.label?, hF', hF, hup, wrap_append, wrap_append]
  rfl

/-- What changes of a document retain: the texts, their order and all anchors that were there. -/
structure Retains (mute : List String) (d d' : Document) (root : NodeId) : Prop where
  grows : d.Grows d'
  label?_eq : d'.label? root = d.label? root
  sound : Sound mute (labels (d'.treeAt root))
  keys_sublist : (keysOf (landmarks (d.treeAt root))).Sublist (keysOf (landmarks (d'.treeAt root)))
  texts_eq : textsOf (landmarks (d'.treeAt root)) = textsOf (landmarks (d.treeAt root))

namespace Retains

variable {mute : List String} {d d₁ d₂ : Document} {root : NodeId}

theorem refl (wf : d.WellFormed) (hs : Sound mute (labels (d.treeAt root))) : Retains mute d d root :=
  ⟨.refl wf, rfl, hs, .refl _, rfl⟩

theorem trans (h₁ : Retains mute d d₁ root) (h₂ : Retains mute d₁ d₂ root) :
    Retains mute d d₂ root where
  grows := h₁.grows.trans h₂.grows
  label?_eq := h₂.label?_eq.trans h₁.label?_eq
  sound := h₂.sound
  keys_sublist := h₁.keys_sublist.trans h₂.keys_sublist
  texts_eq := h₂.texts_eq.trans h₁.texts_eq

/-- One anchor comes in at a spot. -/
theorem of_spot {fr : Frame Node} {up : List (Frame Node)} {X X' : Forest Node} {d' : Document}
    {u v : List (NodeId × Sign)} {c : NodeId} {id : String} (hF : d.treeAt root = wrap (fr :: up) X)
    (hopen : IsOpen (fr :: up)) (wf : d.WellFormed) (hgrows : d.Grows d')
    (hF' : d'.treeAt root = wrap (fr :: up) X') (hs : Sound mute (labels (d'.treeAt root)))
    (hX : keysOf (landmarks X) = u ++ v)
    (hX' : keysOf (landmarks X') = u ++ (c, .anchor id) :: v) : Retains mute d d' root where
  grows := hgrows
  label?_eq := label?_of_spot wf hF hF'
  sound := hs
  keys_sublist := by
    rw [hF, hF', landmarks_wrap hopen, landmarks_wrap hopen]
    simp only [keysOf_append, keysOf_below, hX, hX', List.append_assoc]
    refine (List.Sublist.refl _).append ((List.Sublist.refl u).append ?_)
    exact List.sublist_cons_self ..
  texts_eq := by
    rw [hF, hF', landmarks_wrap hopen, landmarks_wrap hopen]
    simp only [textsOf, keysOf_append, keysOf_below, hX, hX', List.filter_append,
      List.filter_cons, Sign.isAnchor, Bool.not_true, Bool.false_eq_true, if_false]

theorem charted {ls : List Landmark} (h : Retains mute d d₁ root) (hC : Charted d root mute ls) :
    Charted d₁ root mute (landmarks (d₁.treeAt root)) := by
  refine ⟨h.grows.wellFormed, ?_, h.sound, rfl⟩
  obtain ⟨node, cs, hnode, hl⟩ := hC.exists_eq
  obtain ⟨node', cs', -, hnode'⟩ := h.grows.wellFormed.exists_treeAt (h.grows.mem_ids _ hC.mem_ids)
  have hlabel := h.label?_eq
  rw [Document.label?, Document.label?, hnode, hnode'] at hlabel
  exact ⟨node', cs', hnode', (Option.some.inj hlabel : node'.label = node.label) ▸ hl⟩

end Retains

/-! ## Rows -/

namespace Block

section Rows

variable {d : Document} {root : NodeId} {mute : List String} {fr : Frame Node}
  {up : List (Frame Node)} {l m es r fs rest : Forest Node} {e f : Node}

/-- The label of a new row. -/
abbrev rowLabel : Label := .element ⟨Word.row, []⟩

/-- Putting rows around siblings, from `f` to `e`. -/
theorem surroundRows_spec (wf : d.WellFormed)
    (hF : d.treeAt root = wrap (fr :: up) (l ++ (m ++ cons e es r)))
    (hf : m ++ cons e es r = cons f fs rest) :
    ∃ c k d', surroundRows d f.id e.id = ((c, k), d') ∧ d.Grows d' ∧
      d'.treeAt root = wrap (fr :: up) (l ++ cons ⟨c, rowLabel⟩ nil
        ((m ++ tree e es) ++ cons ⟨k, rowLabel⟩ nil r)) := by
  obtain ⟨hgrows, hF₁⟩ := insertNew_eq wf rowLabel (hf ▸ hF)
  have wf₁ := hgrows.wellFormed
  have hF₁' : ((d.addCopies (tree rowLabel nil)).insertBefore f.id d.freshId).treeAt root =
      wrap (fr :: up) ((l ++ cons ⟨d.freshId, rowLabel⟩ nil m) ++ cons e es r) := by
    rw [hF₁, ← hf, append_assoc]
    rfl
  obtain ⟨hw, hF₂⟩ := (Document.makes_addCopies wf₁ rowLabel nil).insertAfter_spec (.refl wf₁) wf₁
    (wf₁.root_not_mem hF₁').1 hF₁'
  refine ⟨_, _, _, rfl, hgrows.trans hw.grows, ?_⟩
  refine hF₂.trans ?_
  simp only [append_assoc, cons_append, nil_append, tree]
  rfl

theorem anchorable_row (hmute : Word.row ∉ mute) : Anchorable mute Word.row :=
  ⟨hmute, by decide, by decide⟩

/-- The anchor of a placed block, without its place. -/
def Placed.key (p : Placed) : NodeId × Sign :=
  (p.first, .anchor (startPoint p.block.kind p.number).id)

/-- What placing one block comes to: its anchor comes in, and all else is retained. -/
structure PlacesOne (mute : List String) (d d' : Document) (root : NodeId) (number : Nat)
    (block : Block) (p : Placed) : Prop where
  run : placeOne number block d = .ok p d'
  retains : Retains mute d d' root
  number_eq : p.number = number
  block_eq : p.block = block
  keys_perm : (keysOf (landmarks (d'.treeAt root))).Perm (p.key :: keysOf (landmarks (d.treeAt root)))

theorem retains_anchor {X X' : Forest Node} {d' : Document} {u v : List (NodeId × Sign)}
    {c : NodeId} {number : Nat} {block : Block} {last : NodeId} (hF : d.treeAt root = wrap (fr :: up) X)
    (hopen : IsOpen (fr :: up)) (wf : d.WellFormed)
    (hrun : placeOne number block d = .ok ⟨number, block, c, last⟩ d') (hgrows : d.Grows d')
    (hF' : d'.treeAt root = wrap (fr :: up) X') (hs : Sound mute (labels (d'.treeAt root)))
    (hX : keysOf (landmarks X) = u ++ v)
    (hX' : keysOf (landmarks X') = u ++ (c, .anchor (startPoint block.kind number).id) :: v) :
    ∃ p d', PlacesOne mute d d' root number block p := by
  refine ⟨_, _, hrun, Retains.of_spot hF hopen wf hgrows hF' hs hX hX', rfl, rfl, ?_⟩
  rw [hF', hF, landmarks_wrap hopen, landmarks_wrap hopen]
  simp only [keysOf_append, keysOf_below, hX', hX, Placed.key]
  grind

/-- Placing a block around rows. -/
theorem placesOne_rows (wf : d.WellFormed) (hs : Sound mute (labels (d.treeAt root)))
    (hmute : Word.row ∉ mute) (hF : d.treeAt root = wrap (fr :: up) (l ++ (m ++ cons e es r)))
    (hf : m ++ cons e es r = cons f fs rest)
    (hopen : ∀ fr' ∈ fr :: up,
      fr'.value.label.isLandmark = false ∧ fr'.value.label.isMute mute = false)
    (number : Nat) {block : Block}
    (hplace : place? d block.start.node block.stop.node = some (surroundRows d f.id e.id)) :
    ∃ p d', PlacesOne mute d d' root number block p := by
  obtain ⟨c, k, d₁, hrows, hgrows, hF₁⟩ := surroundRows_spec wf hF hf
  rw [hrows] at hplace
  obtain ⟨hgrows', hF'⟩ := attach_ends hgrows.wellFormed hF₁ block.kind number
  have hisopen : IsOpen (fr :: up) := fun fr' hfr => (hopen fr' hfr).1
  have hrow : rowLabel.isAnchor = false := rfl
  have hquiet : Quiet (tree (withEnd block.kind number ⟨k, rowLabel⟩).label nil) := by
    rw [quiet_tree, isLandmark_withEnd hrow]
    exact ⟨show rowLabel.isLandmark = false by decide, quiet_nil⟩
  have hlast : landmarks (tree (withEnd block.kind number ⟨k, rowLabel⟩) nil) = [] :=
    landmarks_eq_nil_iff.mpr hquiet
  have hX' : keysOf (landmarks (l ++ cons ⟨c, anchorLabel Word.row block.kind number⟩ nil
      ((m ++ tree e es) ++ cons (withEnd block.kind number ⟨k, rowLabel⟩) nil r))) =
      keysOf (landmarks l) ++ (c, .anchor (startPoint block.kind number).id) ::
        keysOf (landmarks (m ++ cons e es r)) := by
    simp only [landmarks_append, landmarks_cons ⟨c, _⟩ nil, landmarks_anchor,
      landmarks_cons (withEnd block.kind number ⟨k, rowLabel⟩) nil, hlast, landmarks_cons e es]
    simp
  refine retains_anchor hF hisopen wf (placeOne_eq hplace) (hgrows.trans hgrows') hF' ?_
    (by rw [landmarks_append, keysOf_append]) hX'
  rw [hF] at hs
  rw [hF']
  have hin := hs.of_wrap
  simp only [labels_append, labels_cons, sound_append] at hin
  rw [sound_cons] at hin
  refine Sound.wrap_of_open hs hopen ?_
  simp only [labels_append, labels_cons, sound_append, labels_nil]
  rw [sound_cons, sound_append, sound_append, sound_cons]
  exact ⟨hin.1, sound_anchorLabel (anchorable_row hmute) _ _, ⟨hin.2.1, hin.2.2.1⟩, .of_quiet hquiet,
    hin.2.2.2⟩

/-- The nearest node above both ends of a block is a row. -/
theorem placesOne_row {X : Forest Node} (wf : d.WellFormed)
    (hs : Sound mute (labels (d.treeAt root))) (hmute : Word.row ∉ mute)
    (hF : d.treeAt root = wrap (fr :: up) X) (hroot : ∀ l, d.label? root = some l →
      l.isNamed Word.row = false)
    (hopen : ∀ fr' ∈ fr :: up,
      fr'.value.label.isLandmark = false ∧ fr'.value.label.isMute mute = false)
    (hrow : fr.value.label.isNamed Word.row = true) (number : Nat) {block : Block}
    (hcommon : d.commonAncestor? block.start.node block.stop.node = some fr.value.id) :
    ∃ p d', PlacesOne mute d d' root number block p := by
  have hF' : d.treeAt root = wrap up (fr.before ++ cons fr.value X fr.after) := hF
  cases up with
  | nil =>
    -- The row is the scope itself.
    have hmem : root ∈ d.ids := by
      by_contra hn
      have := congrArg toList (hF.symm.trans (wf.treeAt_eq_nil hn))
      simp [toList_wrap, opening, toList] at this
    obtain ⟨node, cs, -, hnode⟩ := wf.exists_treeAt hmem
    obtain ⟨up', hup⟩ := exists_outermost (hF.symm.trans hnode)
    obtain rfl : fr = ⟨nil, node, nil⟩ := by
      cases up' with
      | nil => simpa using hup
      | cons fr' up' => simp at hup
    have hlabel := hroot node.label (by rw [Document.label?, hnode]; rfl)
    rw [hlabel] at hrow
    cases hrow
  | cons fr₂ up =>
    obtain ⟨fr', up', htrees, hvalue, -⟩ := wf.exists_spot_of_treeAt hF'
    have hnamed : d.isNamed fr.value.id Word.row = true :=
      (Document.isNamed_eq wf htrees Word.row).trans hrow
    have hparent : d.parent? fr.value.id = some fr'.value.id := Document.parent?_eq wf htrees
    refine placesOne_rows (m := nil) (f := fr.value) wf hs hmute hF' rfl
      (fun fr' hfr => hopen fr' (List.mem_cons_of_mem _ hfr)) number ?_
    rw [place?, hcommon]
    simp only [Option.bind_eq_bind, Option.bind_some, hnamed, if_true, hparent]
    rfl

/-- The nearest node above both ends of a block is a table. -/
theorem placesOne_table (wf : d.WellFormed)
    (hs : Sound mute (labels (d.treeAt root))) (hmute : Word.row ∉ mute)
    (hF : d.treeAt root = wrap (fr :: up) (l ++ (m ++ cons e es r)))
    (hf : m ++ cons e es r = cons f fs rest)
    (hopen : ∀ fr' ∈ fr :: up,
      fr'.value.label.isLandmark = false ∧ fr'.value.label.isMute mute = false)
    (htable : fr.value.label.isNamed Word.table = true) (number : Nat) {block : Block}
    (hcommon : d.commonAncestor? block.start.node block.stop.node = some fr.value.id)
    (hstart : d.childToward? fr.value.id block.start.node = some f.id)
    (hstop : d.childToward? fr.value.id block.stop.node = some e.id) :
    ∃ p d', PlacesOne mute d d' root number block p := by
  obtain ⟨fr', up', htrees, hvalue, -⟩ := wf.exists_spot_of_treeAt hF
  have hnamed : ∀ name, d.isNamed fr.value.id name = fr.value.label.isNamed name := by
    intro name
    rw [← hvalue]
    exact Document.isNamed_eq wf (Document.trees_eq_of_cons htrees) name
  have hrow : fr.value.label.isNamed Word.row = false := by
    simp only [Label.isNamed, beq_iff_eq] at htable ⊢
    rw [htable]
    decide
  refine placesOne_rows wf hs hmute hF hf hopen number ?_
  rw [place?, hcommon]
  simp only [Option.bind_eq_bind, Option.bind_some, hnamed, hrow, htable, Bool.false_eq_true, if_false,
    if_true, hstart, hstop]
  rfl

end Rows

/-! ## One block -/

/-- Whether a block starts at one of these nodes and stops there or at a later one. -/
def InOrder (ns : List NodeId) (b : Block) : Prop :=
  [b.start.node, b.stop.node].Sublist ns ∨ b.stop.node = b.start.node ∧ b.start.node ∈ ns

theorem InOrder.mono {ns ns' : List NodeId} {b : Block} (h : InOrder ns b) (hns : ns.Sublist ns') :
    InOrder ns' b :=
  h.imp (·.trans hns) fun h => ⟨h.1, hns.subset h.2⟩

/-- Where the texts at the ends of a block stand among the landmarks. -/
theorem InOrder.exists_eq {ls : List Landmark} {b : Block}
    (h : InOrder ((textsOf ls).map Prod.fst) b) :
    ∃ u s v, ls = u ++ s :: v ∧ s.sign.isAnchor = false ∧ b.start.node = s.node ∧
      (b.stop.node = s.node ∨ ∃ v' e w, v = v' ++ e :: w ∧ e.sign.isAnchor = false ∧
        b.stop.node = e.node) := by
  have htexts : (textsOf ls).map Prod.fst =
      (ls.filter (!·.sign.isAnchor)).map Landmark.node := by
    simp [textsOf, keysOf, List.filter_map, Function.comp_def]
  rw [htexts] at h
  rcases h with h | ⟨hstop, hmem⟩
  · obtain ⟨ls', hls', heq⟩ := List.sublist_map_iff.mp h
    obtain ⟨s, ls'', rfl, hs, heq⟩ := List.map_eq_cons_iff.mp heq.symm
    obtain ⟨e, rest, rfl, he, hrest⟩ := List.map_eq_cons_iff.mp heq
    obtain rfl := List.map_eq_nil_iff.mp hrest
    have htext : ∀ x ∈ [s, e], x.sign.isAnchor = false := fun x hx => by
      simpa using (List.mem_filter.mp (hls'.subset hx)).2
    obtain ⟨r₁, r₂, rfl, hs₁, he₂⟩ := List.cons_sublist_iff.mp (hls'.trans List.filter_sublist)
    obtain ⟨u, v, rfl⟩ := List.append_of_mem hs₁
    obtain ⟨v', w, rfl⟩ := List.append_of_mem (List.singleton_sublist.mp he₂)
    refine ⟨u, s, v ++ (v' ++ e :: w), by simp, htext s (by simp), hs.symm, .inr ?_⟩
    exact ⟨v ++ v', e, w, by simp, htext e (by simp), he.symm⟩
  · obtain ⟨s, hs, hnode⟩ := List.mem_map.mp hmem
    obtain ⟨hs, htext⟩ := List.mem_filter.mp hs
    obtain ⟨u, v, rfl⟩ := List.append_of_mem hs
    exact ⟨u, s, v, rfl, by simpa using htext, hnode.symm, .inl (hstop.trans hnode.symm)⟩

section One

variable {d : Document} {root : NodeId} {mute : List String} {ls u v w : List Landmark}
  {s e : Landmark}

/-- Placing a block that stops where it starts. -/
theorem placesOne_single (hC : Charted d root mute (u ++ s :: v)) (hp : Word.paragraph ∉ mute)
    (hr : Word.row ∉ mute) (hroot : ∀ l, d.label? root = some l → l.isNamed Word.row = false)
    (hs : s.sign.isAnchor = false) (number : Nat) {block : Block}
    (hstart : block.start.node = s.node) (hstop : block.stop.node = s.node) :
    ∃ p d', PlacesOne mute d d' root number block p := by
  obtain ⟨fr, up, l, a, as, r, hat⟩ := hC.exists_stands
  have wf := hC.wellFormed
  have hF := hat.treeAt_eq
  have hisopen : IsOpen (fr :: up) := fun fr' hfr => (hat.isOpen fr' hfr).1
  obtain ⟨fr', up', htrees, hvalue, -⟩ := wf.exists_spot_of_treeAt hF
  have hnode : s.node = a.id := by rw [hat.eq]
  have hanchor : a.label.isAnchor = false := by
    rw [hat.eq, isAnchor_signOf] at hs
    exact hs
  have hcommon : d.commonAncestor? block.start.node block.stop.node = some fr.value.id := by
    rw [hstart, hstop, hnode, Document.commonAncestor?, Document.ancestors_eq wf htrees,
      List.map_cons, hvalue]
    simp
  by_cases hrow : fr.value.label.isNamed Word.row = true
  · exact placesOne_row wf hC.sound hr hF hroot hat.isOpen hrow number hcommon
  by_cases htable : fr.value.label.isNamed Word.table = true
  · have hchild : d.childToward? fr.value.id a.id = some a.id := by
      rw [← hvalue]
      exact wf.childToward?_eq htrees (by simp)
    exact placesOne_table (m := nil) (f := a) wf hC.sound hr hF rfl hat.isOpen htable number hcommon
      (by rw [hstart, hnode, hchild]) (by rw [hstop, hnode, hchild])
  rw [Bool.not_eq_true] at hrow htable
  obtain ⟨d', hrun, hgrows, hF', hs'⟩ := placeOne_single wf hC.sound hp hF hrow htable hat.isLandmark
    hanchor number (hstart.trans hnode) (hstop.trans hnode)
  refine retains_anchor hF hisopen wf hrun hgrows hF' hs' (u := keysOf (landmarks l))
    (by rw [landmarks_append, keysOf_append]) ?_
  simp only [landmarks_append, landmarks_cons ⟨d.freshId, _⟩ nil, landmarks_anchor,
    landmarks_cons (withEnd block.kind number a) as, landmarks_withEnd hanchor, landmarks_cons a as]
  simp

/-- The anchors at the front of some trees side by side. -/
theorem exists_leading_anchors (f : Forest Node) : ∃ anchors rest, f = anchors ++ rest ∧
    (∀ n ∈ anchors.roots, n.label.isAnchor = true) ∧
      ∀ n ∈ rest.roots.head?, n.label.isAnchor = false := by
  induction f with
  | nil => exact ⟨nil, nil, rfl, by simp [roots], by simp [roots]⟩
  | cons node cs rest _ ih =>
    by_cases h : node.label.isAnchor = true
    · obtain ⟨anchors, rest', rfl, hanchors, hrest⟩ := ih
      refine ⟨cons node cs anchors, rest', rfl, ?_, hrest⟩
      simpa [roots, h] using hanchors
    · exact ⟨nil, cons node cs rest, rfl, by simp [roots], by simpa [roots] using h⟩

/-- Placing a block whose ends are in different trees. -/
theorem placesOne_fork (hC : Charted d root mute (u ++ s :: (v ++ e :: w)))
    (hp : Word.paragraph ∉ mute) (hr : Word.row ∉ mute)
    (hroot : ∀ l, d.label? root = some l → l.isNamed Word.row = false)
    (he : e.sign.isAnchor = false) (number : Nat) {block : Block}
    (hstart : block.start.node = s.node) (hstop : block.stop.node = e.node) :
    ∃ p d', PlacesOne mute d d' root number block p := by
  have wf := hC.wellFormed
  obtain ⟨⟨up, left, a, as, mid, b, bs, right, u₁, x, v₁, v₂, y, w₂, hF, -, hla, hlb, rfl, rfl, rfl,
    rfl, rfl⟩⟩ := exists_fork hC.landmarks_eq
  -- The scope is a single tree, so the two trees have a node above them.
  obtain ⟨node, cs, hnode, -⟩ := hC.exists_eq
  obtain ⟨fr, up, rfl⟩ : ∃ fr up', up = fr :: up' := by
    cases up with
    | cons fr up => exact ⟨fr, up, rfl⟩
    | nil =>
      have := congrArg (fun f => f.roots.length) (hF.symm.trans hnode)
      simp only [wrap, roots_append, roots, roots_tree, List.length_append, List.length_cons,
        List.length_nil] at this
      omega
  have hs := hC.sound
  have hloud : ¬ Quiet (labels (left ++ cons a as (mid ++ cons b bs right))) := by
    rw [← landmarks_eq_nil_iff, landmarks_append, landmarks_cons, hla]
    simp
  have hopen := (hF ▸ hs).open_of_wrap hloud
  have hisopen : IsOpen (fr :: up) := fun fr' hfr => (hopen fr' hfr).1
  have hbanchor : b.label.isAnchor = false := isAnchor_eq_false_of_landmarks hlb he
  obtain ⟨fr', up', htrees, hvalue, -⟩ := wf.exists_spot_of_treeAt hF
  have hx : x.node ∈ ids (tree a as) := (mem_ids_of_mem_landmarks (by simp [hla])).1
  have hy : y.node ∈ ids (tree b bs) := (mem_ids_of_mem_landmarks (by simp [hlb])).1
  have hcommon : d.commonAncestor? block.start.node block.stop.node = some fr.value.id := by
    rw [hstart, hstop, ← hvalue]
    exact wf.commonAncestor?_eq htrees hx hy
  by_cases hrow : fr.value.label.isNamed Word.row = true
  · exact placesOne_row wf hs hr hF hroot hopen hrow number hcommon
  by_cases htable : fr.value.label.isNamed Word.table = true
  · refine placesOne_table (m := cons a as mid) (f := a) wf hs hr hF rfl hopen htable number hcommon
      ?_ ?_
    · rw [hstart, ← hvalue]
      exact wf.childToward?_eq htrees hx
    · have htrees' : d.trees = wrap (fr' :: up') ((left ++ cons a as mid) ++ cons b bs right) := by
        rw [htrees, append_assoc]
        rfl
      rw [hstop, ← hvalue]
      exact wf.childToward?_eq htrees' hy
  rw [Bool.not_eq_true] at hrow htable
  -- Where nothing is divided off, the anchor goes past those that are there.
  obtain ⟨anchors, mid, rfl, hanchors, hlower, hmid⟩ : ∃ anchors mid', mid = anchors ++ mid' ∧
      (∀ n ∈ anchors.roots, n.label.isAnchor = true) ∧
      (anchors ≠ nil → (Division.after x.node d.fresh (tree a as)).lower = nil) ∧
      ((Division.after x.node d.fresh (tree a as)).lower = nil →
        ∀ n ∈ mid'.roots.head?, n.label.isAnchor = false) := by
    by_cases hl : (Division.after x.node d.fresh (tree a as)).lower = nil
    · obtain ⟨anchors, mid', rfl, hanchors, hmid⟩ := exists_leading_anchors mid
      exact ⟨anchors, mid', rfl, hanchors, fun _ => hl, fun _ => hmid⟩
    · exact ⟨nil, mid, rfl, by simp [roots], fun h => absurd rfl h, fun h => absurd h hl⟩
  have hF₁ : d.treeAt root =
      wrap (fr :: up) (left ++ cons a as (anchors ++ (mid ++ cons b bs right))) := by
    rw [hF, append_assoc]
  obtain ⟨c, δ, δ', kas, kbs, k, d', hrun, hgrows, -, hδ, hnone, hkas, -, -, hδ', hkbs, hF', hs'⟩ :=
    placeOne_fork ⟨wf, hs, hF₁, hrow, htable, hla, hlb, hanchors, hlower, hmid, hbanchor⟩ hp number
      hstart hstop
  obtain ⟨g, -, hgone⟩ := hδ.landmarks_gone
  obtain ⟨g', -, hgone'⟩ := hδ'.landmarks_gone
  have hka : landmarks (tree a kas) = u₁ ++ [x] := hkas ▸ hδ.landmarks_kept
  have hkb : landmarks (tree (withEnd block.kind number b) kbs) = y :: w₂ := by
    rw [landmarks_withEnd hbanchor, ← hkbs, hδ'.landmarks_kept]
  have hempty : landmarks anchors = [] ∨ v₁ = [] := by
    rcases hnone with rfl | hnone
    · exact .inl rfl
    · rw [hnone, landmarks_nil] at hgone
      exact .inr (List.map_eq_nil_iff.mp hgone.symm)
  refine retains_anchor hF₁ hisopen wf hrun hgrows hF' hs'
    (u := keysOf (landmarks left ++ u₁ ++ x :: landmarks anchors))
    (v := keysOf (v₁ ++ landmarks mid ++ v₂ ++ y :: w₂ ++ landmarks right)) ?_ ?_
  · simp only [landmarks_append, landmarks_cons a as, landmarks_cons b bs, hla, hlb]
    rcases hempty with h | h <;> simp [h]
  · simp only [landmarks_append, landmarks_cons a kas, landmarks_cons ⟨c, _⟩ nil,
      landmarks_cons (withEnd block.kind number b) kbs, landmarks_anchor, hka, hkb, hgone, hgone']
    simp

/-- Placing a block that starts before it stops. -/
theorem placesOne_of_inOrder (hC : Charted d root mute ls) (hp : Word.paragraph ∉ mute)
    (hr : Word.row ∉ mute) (hroot : ∀ l, d.label? root = some l → l.isNamed Word.row = false)
    (number : Nat) {block : Block} (h : InOrder ((textsOf ls).map Prod.fst) block) :
    ∃ p d', PlacesOne mute d d' root number block p := by
  obtain ⟨u, s, v, rfl, hs, hstart, hstop | ⟨v', e, w, rfl, he, hstop⟩⟩ := h.exists_eq
  · exact placesOne_single hC hp hr hroot hs number hstart hstop
  · exact placesOne_fork hC hp hr hroot he number hstart hstop

end One

/-! ## All blocks -/

/-- What placing blocks comes to: their anchors come in, and all else is retained. -/
structure PlacesAny (mute : List String) (d d' : Document) (root : NodeId)
    (F : Forest (Nat × Block)) (F' : Forest Placed) : Prop where
  run : placeAll F d = .ok F' d'
  retains : Retains mute d d' root
  numbers_eq : F'.map (fun p => (p.number, p.block)) = F
  keys_perm : (keysOf (landmarks (d'.treeAt root))).Perm
    (F'.toList.map Placed.key ++ keysOf (landmarks (d.treeAt root)))

/-- All blocks that start before they stop can be placed. -/
theorem exists_placesAny {d : Document} {root : NodeId} {mute : List String} {ls : List Landmark}
    {F : Forest (Nat × Block)} (hC : Charted d root mute ls) (hp : Word.paragraph ∉ mute)
    (hr : Word.row ∉ mute)
    (hroot : ls ≠ [] → ∀ l, d.label? root = some l → l.isNamed Word.row = false)
    (h : ∀ b ∈ F.toList, InOrder ((textsOf ls).map Prod.fst) b.2) :
    ∃ F' d', PlacesAny mute d d' root F F' := by
  induction F generalizing d ls with
  | nil => exact ⟨nil, d, rfl, .refl hC.wellFormed hC.sound, rfl, .refl _⟩
  | cons b inner rest ihi ihr =>
    obtain ⟨number, block⟩ := b
    have hblock := h (number, block) (by simp [toList])
    have hroot : ∀ l, d.label? root = some l → l.isNamed Word.row = false := by
      obtain ⟨u, s, v, rfl, -⟩ := hblock.exists_eq
      exact hroot (by simp)
    obtain ⟨p, d₁, h₁⟩ := placesOne_of_inOrder hC hp hr hroot number hblock
    have htexts₁ : textsOf (landmarks (d₁.treeAt root)) = textsOf ls := by
      rw [h₁.retains.texts_eq, hC.landmarks_eq]
    obtain ⟨I, d₂, h₂⟩ := ihi (h₁.retains.charted hC) (fun _ => by rw [h₁.retains.label?_eq]; exact hroot)
      fun b hb => by
        rw [htexts₁]
        exact h b (by simp [toList, hb])
    have h₁₂ := h₁.retains.trans h₂.retains
    obtain ⟨R, d₃, h₃⟩ := ihr (h₁₂.charted hC) (fun _ => by rw [h₁₂.label?_eq]; exact hroot) fun b hb => by
      rw [h₁₂.texts_eq, hC.landmarks_eq]
      exact h b (by simp [toList, hb])
    refine ⟨cons p I R, d₃, placeAll_cons h₁.run h₂.run h₃.run, h₁₂.trans h₃.retains, ?_, ?_⟩
    · rw [Forest.map, h₂.numbers_eq, h₃.numbers_eq, h₁.number_eq, h₁.block_eq]
    · have h₃₁ := h₃.keys_perm.trans ((h₂.keys_perm.trans (h₁.keys_perm.append_left _)).append_left _)
      refine h₃₁.trans ?_
      simp only [toList, List.map_cons, List.map_append]
      grind

end Block

/-! ## Blocks of a layout -/

/-- The texts of blocks, with those at the ends of the block that they are passages of. -/
def Role.around : Role → List NodeId → List NodeId
  | .level, ns => ns
  | .passages _ start stop, ns => start.node :: (ns ++ [stop.node])

/-- The blocks of a layout start before they stop. -/
theorem Layout.inOrder {role : Role} {P : Forest Part} {B : Forest Block} {ls : List Landmark}
    (h : Layout role P B ls) :
    ∀ b ∈ B.toList, Block.InOrder (role.around (ls.map Landmark.node)) b := by
  induction h with
  | nil => simp [toList]
  | text _ _ ih => exact fun b hb => (ih b hb).mono (List.sublist_cons_self ..)
  | value _ _ _ ih => exact fun b hb => (ih b hb).mono (List.sublist_cons_self ..)
  | @keyword x m P B ls hx _ _ ih =>
    intro b hb
    rcases List.mem_cons.mp hb with rfl | hb
    · exact .inr ⟨rfl, by simp [Role.around, hx.node_eq]⟩
    · exact (ih b (by simpa [toList] using hb)).mono (List.sublist_cons_self ..)
  | @block s e start stop PS P BS B mid ls hs he _ _ _ _ _ ihs ih =>
    intro b hb
    simp only [toList, List.mem_cons, List.mem_append] at hb
    simp only [Role.around, List.map_cons, List.map_append, ← hs.node_eq, ← he.node_eq] at ihs ih ⊢
    rcases hb with rfl | hb | hb
    · exact .inl (.cons_cons _ (List.singleton_sublist.mpr (by simp)))
    · refine (ihs b hb).mono (.cons_cons _ ((List.Sublist.refl _).append ?_))
      exact List.singleton_sublist.mpr (List.mem_cons_self ..)
    · refine (ih b hb).mono (.cons _ ?_)
      exact (List.sublist_cons_self ..).trans (List.sublist_append_right ..)
  | @last kind start stop P B ls _ ih =>
    intro b hb
    simp only [toList, tree, List.append_nil, List.mem_cons] at hb
    rcases hb with rfl | hb
    · exact .inl (.cons_cons _ (List.singleton_sublist.mpr (by simp)))
    · exact (ih b hb).mono (.cons _ (List.sublist_append_left ..))
  | @more kind x start next stop P PS B BS ls rest _ hx _ _ ih ihs =>
    intro b hb
    simp only [toList, List.mem_cons, List.mem_append] at hb
    simp only [Role.around, List.map_cons, List.map_append, ← hx.node_eq] at ihs ih ⊢
    rcases hb with rfl | hb | hb
    · exact .inl (.cons_cons _ (List.singleton_sublist.mpr (by simp)))
    · refine (ih b hb).mono (.cons _ ?_)
      exact (List.sublist_append_left ..).trans (List.sublist_append_left ..)
    · refine (ihs b hb).mono (.cons _ ?_)
      rw [List.append_assoc]
      exact List.sublist_append_right ..

end WordTemplate
