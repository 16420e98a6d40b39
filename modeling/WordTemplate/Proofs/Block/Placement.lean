import WordTemplate.Proofs.Word.Division
import WordTemplate.Proofs.Word.Mark

/-!
# Placing one block

What placing a block does to the tree at the root, where neither a table nor a row is the nearest
node above both directives: the two subtrees with the directives are divided, an anchor comes in
front of what lies between them, and both ends are marked.

* `place?_fork`: the divided tree.
* `placeOne_fork`: its landmarks.
-/

namespace WordTemplate

open Xml Forest

namespace Block

variable {d : Document} {root : NodeId} {mute : List String} {fr : Frame Node}
  {up : List (Frame Node)}

/-! ## Siblings of a divided node -/

theorem followingSiblings_eq {l r cs : Forest Node} {node : Node} (wf : d.WellFormed)
    (h : d.treeAt root = wrap (fr :: up) (l ++ cons node cs r)) :
    followingSiblings d node.id = r.roots.map Node.id := by
  obtain ⟨fr', up', htrees, -, -⟩ := wf.exists_spot_of_treeAt h
  rw [followingSiblings, Document.index?_eq wf htrees, Document.siblings_eq wf htrees]
  simp [roots, List.drop_append]

theorem isAnchor_of_mem_roots {X : Forest Node} {node : Node} (wf : d.WellFormed)
    (h : d.treeAt root = wrap (fr :: up) X) (hn : node ∈ X.roots) :
    d.isAnchor node.id = node.label.isAnchor := by
  obtain ⟨fr', up', htrees, -, -⟩ := wf.exists_spot_of_treeAt h
  obtain ⟨l, cs, r, rfl⟩ : ∃ l cs r, X = l ++ cons node cs r := by
    clear h htrees
    induction X with
    | nil => simp [roots] at hn
    | cons a as rest _ ih =>
      rcases List.mem_cons.mp hn with rfl | hn
      · exact ⟨nil, as, rest, rfl⟩
      · obtain ⟨l, cs, r, rfl⟩ := ih hn
        exact ⟨cons a as l, cs, r, rfl⟩
  rw [Document.isAnchor, Document.label?_eq wf htrees]
  rfl

/-- The siblings behind a node, from the first on that is not an anchor. -/
theorem pastAnchors?_eq {l anchors r as cs : Forest Node} {a node : Node} (wf : d.WellFormed)
    (h : d.treeAt root = wrap (fr :: up) (l ++ cons a as (anchors ++ cons node cs r)))
    (hanchors : ∀ n ∈ anchors.roots, n.label.isAnchor = true) (hnode : node.label.isAnchor = false) :
    pastAnchors? d (followingSiblings d a.id) = some node.id := by
  have hat : ∀ n ∈ (anchors ++ cons node cs r).roots, d.isAnchor n.id = n.label.isAnchor := by
    intro n hn
    refine isAnchor_of_mem_roots wf h ?_
    rw [roots_append, roots]
    exact List.mem_append_right _ (List.mem_cons_of_mem _ hn)
  rw [followingSiblings_eq wf h, pastAnchors?, roots_append, List.map_append, List.find?_append]
  have hnone : (anchors.roots.map Node.id).find? (!d.isAnchor ·) = none := by
    rw [List.find?_eq_none]
    intro i hi
    obtain ⟨n, hn, rfl⟩ := List.mem_map.mp hi
    simp [hat n (by simp [hn]), hanchors n hn]
  have hfirst := hat node (by simp [roots])
  simp [hnone, roots, hfirst, hnode]

/-! ## Inserting the anchor -/

/-- Putting a new element in front of a node. -/
theorem insertNew_eq {l r cs : Forest Node} {node : Node} (wf : d.WellFormed) (label : Label)
    (hF : d.treeAt root = wrap (fr :: up) (l ++ cons node cs r)) :
    d.Grows ((d.addCopies (tree label nil)).insertBefore node.id d.freshId) ∧
      ((d.addCopies (tree label nil)).insertBefore node.id d.freshId).treeAt root =
        wrap (fr :: up) (l ++ cons ⟨d.freshId, label⟩ nil (cons node cs r)) := by
  obtain ⟨hroot, hat, hrn⟩ := wf.root_not_mem hF
  let made := d.addCopies (tree label nil)
  have hgrows : d.Grows made := wf.grows_addCopies _
  have hmade : made.treeAt root = wrap (fr :: up) (l ++ cons node cs r) := by
    rw [wf.treeAt_addCopies_of_mem _ hroot, hF]
  have hnew : made.treeAt d.freshId = tree ⟨d.freshId, label⟩ nil := wf.treeAt_freshId label nil
  have hmem : node.id ∈ Xml.ids (made.treeAt root) := by
    rw [hmade, ids_wrap]
    simp
  have hne : node.id ≠ root := by
    rintro rfl
    simp at hrn
  have hnode : node.id ∈ d.ids := (wf.mem_ids_of_treeAt hat).1
  have hrec : made.Receives d.freshId node.id := wf.receives_copy label nil hnode
  have hparent := hgrows.wellFormed.parent?_isSome hmem hne
  refine ⟨hgrows.trans (hgrows.wellFormed.grows_insertBefore hrec hparent), ?_⟩
  rw [hgrows.wellFormed.treeAt_insertBefore hrec hparent, if_neg,
    replace_spot (hgrows.wellFormed.nodup_treeAt root) hmade, hnew]
  · rfl
  · rw [hnew, not_or]
    refine ⟨fun hr => ?_, hne.symm⟩
    have hlt := wf.lt_fresh root hroot
    obtain rfl : root = d.freshId := by simpa using hr
    exact Nat.lt_irrefl _ hlt

theorem insertAnchor_eq {l anchors lower mid as : Forest Node} {a : Node} (wf : d.WellFormed)
    (hF : d.treeAt root = wrap (fr :: up) (l ++ cons a as (lower ++ (anchors ++ mid))))
    (hlower : lower = nil ∨ anchors = nil ∧ ∃ node cs, lower = tree node cs)
    (hanchors : ∀ n ∈ anchors.roots, n.label.isAnchor = true)
    (hmid : ∃ node cs rest, mid = cons node cs rest ∧
      (lower = nil → node.label.isAnchor = false)) :
    ∃ d', insertAnchor d fr.value.id (a.id :: lower.roots.map Node.id) true = (d.freshId, d') ∧
      d.Grows d' ∧ d'.treeAt root = wrap (fr :: up) (l ++ cons a as (anchors ++
        cons ⟨d.freshId, .element ⟨Word.paragraph, []⟩⟩ nil (lower ++ mid))) := by
  let label : Label := .element ⟨Word.paragraph, []⟩
  let made := d.addCopies (tree label nil)
  have hgrows : d.Grows made := wf.grows_addCopies _
  have hcreate : d.createElement Word.paragraph = (d.freshId, made) := rfl
  obtain ⟨node, cs, rest, rfl, hnode⟩ := hmid
  rcases hlower with rfl | ⟨rfl, ln, lcs, rfl⟩
  · have hmade : made.treeAt root =
        wrap (fr :: up) (l ++ cons a as (anchors ++ cons node cs rest)) := by
      rw [wf.treeAt_addCopies_of_mem _ (wf.root_not_mem hF).1, hF]
      rfl
    have hspot : d.treeAt root =
        wrap (fr :: up) ((l ++ cons a as anchors) ++ cons node cs rest) := by
      rw [hF, append_assoc]
      rfl
    obtain ⟨hg, ht⟩ := insertNew_eq wf label hspot
    refine ⟨_, ?_, hg, ?_⟩
    · rw [insertAnchor, hcreate]
      simp only [roots, List.map_nil, pastAnchors?_eq hgrows.wellFormed hmade hanchors (hnode rfl)]
      rfl
    · rw [ht, append_assoc]
      rfl
  · have hspot : d.treeAt root =
        wrap (fr :: up) ((l ++ tree a as) ++ cons ln lcs (cons node cs rest)) := by
      rw [hF, append_assoc]
      rfl
    obtain ⟨hg, ht⟩ := insertNew_eq wf label hspot
    refine ⟨_, ?_, hg, ?_⟩
    · rw [insertAnchor, hcreate]
      rfl
    · rw [ht, append_assoc]
      rfl

/-! ## Dividing at both ends -/

section Fork

variable {left anchors mid right as bs : Forest Node} {a b : Node} {u₁ v₁ v₂ w₂ : List Landmark}
  {x y : Landmark}

/-- Where the ends of a block stand: in trees side by side below a node that is neither a table nor
a row. Where nothing is divided off behind the start, the anchors that directly follow the first of
these trees are told apart from what is behind them. -/
structure Ends (d : Document) (root : NodeId) (mute : List String) (fr : Frame Node)
    (up : List (Frame Node)) (left : Forest Node) (a : Node) (as anchors mid : Forest Node)
    (b : Node) (bs right : Forest Node) (u₁ : List Landmark) (x : Landmark) (v₁ v₂ : List Landmark)
    (y : Landmark) (w₂ : List Landmark) : Prop where
  wellFormed : d.WellFormed
  sound : Sound mute (labels (d.treeAt root))
  treeAt_root : d.treeAt root =
    wrap (fr :: up) (left ++ cons a as (anchors ++ (mid ++ cons b bs right)))
  not_row : fr.value.label.isNamed Word.row = false
  not_table : fr.value.label.isNamed Word.table = false
  landmarks_a : landmarks (tree a as) = u₁ ++ x :: v₁
  landmarks_b : landmarks (tree b bs) = v₂ ++ y :: w₂
  anchors_eq : ∀ n ∈ anchors.roots, n.label.isAnchor = true
  lower_eq : anchors ≠ nil → (Division.after x.node d.fresh (tree a as)).lower = nil
  mid_eq : (Division.after x.node d.fresh (tree a as)).lower = nil →
    ∀ n ∈ mid.roots.head?, n.label.isAnchor = false
  b_eq : b.label.isAnchor = false

theorem place?_fork
    (h : Ends d root mute fr up left a as anchors mid b bs right u₁ x v₁ v₂ y w₂) :
    ∃ (c : NodeId) (δ δ' : Division) (kas kbs : Forest Node) (k : Nat) (d' : Document),
      place? d x.node y.node = some ((c, b.id), d') ∧ d.Grows d' ∧ d.fresh ≤ c.number ∧
      Splits mute (tree a as) d.fresh δ x.above (u₁ ++ [x]) v₁ δ.lower ∧
      (anchors = nil ∨ δ.lower = nil) ∧ δ.kept = tree a kas ∧ EndsAt x.node δ.kept ∧ d.fresh ≤ k ∧
      Splits mute (tree b bs) k δ' y.above (y :: w₂) v₂ δ'.lower ∧ δ'.kept = tree b kbs ∧
      d'.treeAt root = wrap (fr :: up) (left ++ cons a kas (anchors ++
        cons ⟨c, .element ⟨Word.paragraph, []⟩⟩ nil
          ((δ.lower ++ (mid ++ δ'.lower)) ++ cons b kbs right))) := by
  have wf := h.wellFormed
  have hF := h.treeAt_root
  have hx : x.node ∈ ids (tree a as) := (mem_ids_of_mem_landmarks (by simp [h.landmarks_a])).1
  have hy : y.node ∈ ids (tree b bs) := (mem_ids_of_mem_landmarks (by simp [h.landmarks_b])).1
  -- The nodes above the two ends.
  obtain ⟨fr', up', htrees, hvalue, -⟩ := wf.exists_spot_of_treeAt hF
  have htrees₁ : d.trees = wrap (fr' :: up')
      (left ++ cons a as ((anchors ++ mid) ++ cons b bs right)) := by
    rw [htrees, append_assoc anchors]
  have htrees₂ : d.trees = wrap (fr' :: up')
      ((left ++ cons a as (anchors ++ mid)) ++ cons b bs right) := by
    rw [htrees₁, append_assoc left]
    rfl
  have hcommon := wf.commonAncestor?_eq htrees₁ hx hy
  have hstart := wf.childToward?_eq htrees₁ hx
  have hstop := wf.childToward?_eq htrees₂ hy
  have hnamed := fun name => Document.isNamed_eq wf (Document.trees_eq_of_cons htrees) name
  rw [hvalue] at hcommon hstart hstop hnamed
  have hne : a.id ≠ b.id := by
    have hnd := Document.nodup_siblings wf htrees₂
    intro he
    rw [List.nodup_append] at hnd
    exact hnd.2.2 a.id (by simp [roots]) b.id (by simp) he
  -- Dividing after the start.
  obtain ⟨δ, hδ, hafter, ⟨kas, hkas⟩, hends, hparts, hgrows₁, hF₁⟩ :=
    Document.divideAfter_spec wf h.sound hF h.landmarks_a
  rw [hkas, tree, cons_append, nil_append] at hF₁
  have hlowers : δ.lower = nil ∨ anchors = nil ∧ ∃ node cs, δ.lower = tree node cs := by
    by_cases hn : anchors = nil
    · exact hδ.lower_eq.imp_right fun hl => ⟨hn, hl⟩
    · exact .inl (hafter ▸ h.lower_eq hn)
  have hnext : ∃ node cs rest, mid ++ cons b bs right = cons node cs rest ∧
      (δ.lower = nil → node.label.isAnchor = false) := by
    cases hm : mid with
    | nil => exact ⟨b, bs, right, rfl, fun _ => h.b_eq⟩
    | cons node cs rest =>
      refine ⟨node, cs, rest ++ cons b bs right, rfl, fun hl => ?_⟩
      exact h.mid_eq (hafter ▸ hl) node (by simp [hm, roots])
  -- Putting in the anchor.
  obtain ⟨d₂, hinsert, hgrows₂, hF₂⟩ :=
    insertAnchor_eq hgrows₁.wellFormed hF₁ hlowers h.anchors_eq hnext
  -- Dividing before the end.
  have hF₂' : d₂.treeAt root = wrap (fr :: up) ((left ++ cons a kas (anchors ++
      cons ⟨(d.divideAfter a.id x.node).2.freshId, .element ⟨Word.paragraph, []⟩⟩ nil
        (δ.lower ++ mid))) ++ cons b bs right) := by
    rw [hF₂]
    simp only [append_assoc, cons_append]
  have hsound₂ : Sound mute (labels (d₂.treeAt root)) := by
    have hs := h.sound
    rw [hF] at hs
    rw [hF₂']
    have hin := hs.of_wrap
    rw [labels_append, labels_cons, sound_append, sound_cons, labels_append, labels_append,
      labels_cons, sound_append, sound_append, sound_cons] at hin
    obtain ⟨h₁, -, h₂, h₃, h₄, h₅⟩ := hin
    refine hs.wrap ?_ ?_
    · rw [← landmarks_eq_nil_iff, landmarks_append, landmarks_cons, h.landmarks_a]
      simp
    · have hk := hδ.sound_kept
      rw [hkas, labels_tree] at hk
      have hc : Sound mute (tree (.element ⟨Word.paragraph, []⟩) nil) :=
        .of_quiet (by simp [Label.isLandmark, Label.isAnchor, Label.attribute?, Label.isNamed,
          Label.name?, Word.paragraph, Word.text])
      simp only [labels_append, labels_cons, sound_append, labels_nil]
      rw [sound_cons, sound_append, sound_cons, sound_append, sound_cons]
      exact ⟨⟨h₁, hk, h₂, hc, hδ.sound_gone, h₃⟩, h₄, h₅⟩
  obtain ⟨δ', hδ', ⟨kbs, hkbs⟩, hgrows₃, hF₃⟩ :=
    Document.divideBefore_spec hgrows₂.wellFormed hsound₂ hF₂' h.landmarks_b
  refine ⟨(d.divideAfter a.id x.node).2.freshId, δ, δ', kas, kbs, d₂.fresh, _, ?_, (hgrows₁.trans hgrows₂).trans hgrows₃,
    hgrows₁.fresh_le, hδ,
    hlowers.symm.imp_left And.left, hkas, hends, (hgrows₁.trans hgrows₂).fresh_le, hδ', hkbs, ?_⟩
  · rw [place?, hcommon]
    simp only [Option.bind_eq_bind, Option.bind_some, hnamed, h.not_row, h.not_table,
      Bool.false_eq_true, if_false, hstart, hstop]
    have hbne : (a.id != b.id) = true := by simpa using hne
    rw [hbne, hparts, hinsert]
    simp only [hne, if_false]
    rfl
  · rw [hF₃, hkbs]
    simp only [append_assoc, cons_append, nil_append, tree]

end Fork

/-! ## Marking both ends -/

/-- The label of an anchor that is an element named `name`. -/
def anchorLabel (name : String) (kind : Directive.Kind) (number : Nat) : Label :=
  (Label.element ⟨name, []⟩).setAttribute Word.insertionAttribute (startPoint kind number).id

theorem isAnchor_anchorLabel (name : String) (kind : Directive.Kind) (number : Nat) :
    (anchorLabel name kind number).isAnchor = true :=
  isAnchor_startPoint rfl kind number

theorem landmarks_anchor (name : String) (n : NodeId) (kind : Directive.Kind) (number : Nat) :
    landmarks (tree ⟨n, anchorLabel name kind number⟩ nil) =
      [⟨n, .anchor (startPoint kind number).id, []⟩] := by
  have hanchor := isAnchor_anchorLabel name kind number
  rw [landmarks_tree_of_isLandmark _ (by simp [Label.isLandmark, hanchor]), signOf, hanchor,
    if_pos rfl]
  simp only [anchorLabel]
  rw [Label.attribute?_setAttribute_self rfl]
  rfl

/-- Whether elements of this name can be anchors: they are neither texts nor mute. -/
structure Anchorable (mute : List String) (name : String) : Prop where
  not_mem : name ∉ mute
  isProperty_eq : Xml.isProperty name = false
  ne_text : name ≠ Word.text

theorem anchorable_paragraph (hmute : Word.paragraph ∉ mute) : Anchorable mute Word.paragraph :=
  ⟨hmute, by decide, by decide⟩

theorem sound_anchorLabel {name : String} (hname : Anchorable mute name) (kind : Directive.Kind)
    (number : Nat) : Sound mute (tree (anchorLabel name kind number) nil) := by
  obtain ⟨hmute, hp, ht⟩ := hname
  refine ⟨fun _ => ⟨quiet_nil, ?_, fun _ => by simp [OnlyText, toList]⟩, fun hm => ?_, trivial,
    trivial⟩
  · have hn : (anchorLabel name kind number).isNamed Word.text = false := by
      rw [anchorLabel, Label.isNamed_setAttribute]
      simpa [Label.isNamed, Label.name?] using ht
    rw [hn, Bool.and_false]
  simp [anchorLabel, Label.isMute, Label.setAttribute, Label.isElement, Label.isProperty,
    Label.isNamed, Label.name?, hp, Ne.symm, hmute] at hm

/-- The node with the insertion point at the end of a block. -/
def withEnd (kind : Directive.Kind) (number : Nat) (node : Node) : Node :=
  { node with
    label := node.label.setAttribute Word.insertionAttribute (endPoint kind number).id }

section WithEnd

variable {kind : Directive.Kind} {number : Nat} {node : Node}

theorem isLandmark_withEnd (h : node.label.isAnchor = false) :
    (withEnd kind number node).label.isLandmark = node.label.isLandmark := by
  simp [withEnd, Label.isLandmark, isAnchor_endPoint, h]

theorem landmarks_withEnd (h : node.label.isAnchor = false) (cs : Forest Node) :
    landmarks (tree (withEnd kind number node) cs) = landmarks (tree node cs) := by
  by_cases hl : node.label.isLandmark = true
  · rw [landmarks_tree_of_isLandmark _ hl,
      landmarks_tree_of_isLandmark _ ((isLandmark_withEnd h).trans hl)]
    simp [signOf, h, withEnd, isAnchor_endPoint]
  · rw [Bool.not_eq_true] at hl
    rw [landmarks_tree _ hl, landmarks_tree _ ((isLandmark_withEnd h).trans hl)]
    simp [crumbOf, withEnd]

theorem sound_withEnd (h : node.label.isAnchor = false) {cs : Forest Label} :
    Sound mute (tree (withEnd kind number node).label cs) ↔ Sound mute (tree node.label cs) := by
  have hl : (withEnd kind number node).label.isLandmark = node.label.isLandmark :=
    isLandmark_withEnd h
  have hm : (withEnd kind number node).label.isMute mute = node.label.isMute mute := by
    simp [withEnd]
  have ha : (withEnd kind number node).label.isAnchor = false := isAnchor_endPoint _ _ _
  have hmarks : (withEnd kind number node).label.marks = node.label.marks :=
    Label.marks_setAttribute_insertion
  simp only [Sound, tree, hl, hm, ha, hmarks, h, Bool.false_and]

end WithEnd

/-- The tree after both ends of a block have been marked. -/
theorem attach_ends {l m bs r : Forest Node} {b : Node} {c : NodeId} {name : String}
    (wf : d.WellFormed) (hF : d.treeAt root = wrap (fr :: up)
      (l ++ cons ⟨c, .element ⟨name, []⟩⟩ nil (m ++ cons b bs r)))
    (kind : Directive.Kind) (number : Nat) :
    d.Grows ((d.attach c (startPoint kind number)).attach b.id (endPoint kind number)) ∧
      ((d.attach c (startPoint kind number)).attach b.id (endPoint kind number)).treeAt root =
        wrap (fr :: up) (l ++ cons ⟨c, anchorLabel name kind number⟩ nil
          (m ++ cons (withEnd kind number b) bs r)) := by
  have hgrows : d.Grows (d.attach c (startPoint kind number)) := wf.grows_relabel c _
  have hF₁ : (d.attach c (startPoint kind number)).treeAt root = wrap (fr :: up)
      ((l ++ cons ⟨c, anchorLabel name kind number⟩ nil m) ++ cons b bs r) := by
    change (d.relabel c _).treeAt root = _
    rw [wf.treeAt_relabel, replace_spot (wf.nodup_treeAt root) hF, append_assoc]
    rfl
  refine ⟨hgrows.trans (hgrows.wellFormed.grows_relabel b.id _), ?_⟩
  change ((d.attach c (startPoint kind number)).relabel b.id _).treeAt root = _
  rw [hgrows.wellFormed.treeAt_relabel, replace_spot (hgrows.wellFormed.nodup_treeAt root) hF₁,
    append_assoc]
  rfl

theorem placeOne_eq {number : Nat} {block : Block} {first last : NodeId} {d' : Document}
    (h : place? d block.start.node block.stop.node = some ((first, last), d')) :
    placeOne number block d = .ok ⟨number, block, first, last⟩
      ((d'.attach first (startPoint block.kind number)).attach last
        (endPoint block.kind number)) := by
  have hget : (EStateM.get : EStateM Error Document Document) d = .ok d d := rfl
  unfold placeOne
  show EStateM.bind EStateM.get _ d = _
  simp only [EStateM.bind, hget, h]
  rfl

/-- Placing a block whose start is its end: an anchor comes in front of it. -/
theorem placeOne_single {l cs r : Forest Node} {node : Node} (wf : d.WellFormed)
    (hs : Sound mute (labels (d.treeAt root))) (hmute : Word.paragraph ∉ mute)
    (hF : d.treeAt root = wrap (fr :: up) (l ++ cons node cs r))
    (hrow : fr.value.label.isNamed Word.row = false)
    (htable : fr.value.label.isNamed Word.table = false) (hl : node.label.isLandmark = true)
    (hnode : node.label.isAnchor = false) (number : Nat) {block : Block}
    (hstart : block.start.node = node.id) (hstop : block.stop.node = node.id) :
    ∃ d', placeOne number block d = .ok ⟨number, block, d.freshId, node.id⟩ d' ∧ d.Grows d' ∧
      d'.treeAt root = wrap (fr :: up) (l ++
        cons ⟨d.freshId, anchorLabel Word.paragraph block.kind number⟩ nil
          (cons (withEnd block.kind number node) cs r)) ∧
      Sound mute (labels (d'.treeAt root)) := by
  obtain ⟨fr', up', htrees, hvalue, -⟩ := wf.exists_spot_of_treeAt hF
  have hchild := wf.childToward?_eq htrees (m := node.id) (by simp)
  have hnamed := fun name => Document.isNamed_eq wf (Document.trees_eq_of_cons htrees) name
  rw [hvalue] at hchild hnamed
  have hcommon : d.commonAncestor? node.id node.id = some fr.value.id := by
    rw [Document.commonAncestor?, Document.ancestors_eq wf htrees, List.map_cons, hvalue]
    simp
  obtain ⟨hgrows, hF₁⟩ := insertNew_eq wf (.element ⟨Word.paragraph, []⟩) hF
  let d₁ := (d.addCopies (tree (.element ⟨Word.paragraph, []⟩) nil)).insertBefore node.id d.freshId
  have hplace : place? d block.start.node block.stop.node = some ((d.freshId, node.id), d₁) := by
    rw [hstart, hstop, place?, hcommon]
    simp only [Option.bind_eq_bind, Option.bind_some, hnamed, hrow, htable, Bool.false_eq_true,
      if_false, hchild, if_true, bne_self_eq_false]
    rw [Document.divideAfter, if_neg (by simp)]
    rfl
  obtain ⟨hgrows₂, hF₂⟩ := attach_ends (m := nil) hgrows.wellFormed hF₁ block.kind number
  refine ⟨_, placeOne_eq hplace, hgrows.trans hgrows₂, hF₂, ?_⟩
  rw [hF] at hs
  rw [hF₂, nil_append]
  have hin := hs.of_wrap
  simp only [labels_append, labels_cons, sound_append] at hin
  rw [sound_cons] at hin
  refine hs.wrap ?_ ?_
  · rw [← landmarks_eq_nil_iff, landmarks_append, landmarks_cons, landmarks_tree_of_isLandmark cs hl]
    simp
  · simp only [labels_append, labels_cons, sound_append, labels_nil]
    rw [sound_cons, sound_cons, sound_withEnd hnode]
    exact ⟨hin.1, sound_anchorLabel (anchorable_paragraph hmute) _ _, hin.2⟩

section Fork

variable {left anchors mid right as bs : Forest Node} {a b : Node} {u₁ v₁ v₂ w₂ : List Landmark}
  {x y : Landmark}

theorem placeOne_fork
    (h : Ends d root mute fr up left a as anchors mid b bs right u₁ x v₁ v₂ y w₂)
    (hmute : Word.paragraph ∉ mute) (number : Nat) {block : Block}
    (hstart : block.start.node = x.node) (hstop : block.stop.node = y.node) :
    ∃ (c : NodeId) (δ δ' : Division) (kas kbs : Forest Node) (k : Nat) (d' : Document),
      placeOne number block d = .ok ⟨number, block, c, b.id⟩ d' ∧ d.Grows d' ∧
      d.fresh ≤ c.number ∧ Splits mute (tree a as) d.fresh δ x.above (u₁ ++ [x]) v₁ δ.lower ∧
      (anchors = nil ∨ δ.lower = nil) ∧ δ.kept = tree a kas ∧ EndsAt x.node δ.kept ∧ d.fresh ≤ k ∧
      Splits mute (tree b bs) k δ' y.above (y :: w₂) v₂ δ'.lower ∧ δ'.kept = tree b kbs ∧
      d'.treeAt root = wrap (fr :: up) (left ++ cons a kas (anchors ++
        cons ⟨c, anchorLabel Word.paragraph block.kind number⟩ nil
          ((δ.lower ++ (mid ++ δ'.lower)) ++ cons (withEnd block.kind number b) kbs right))) ∧
      Sound mute (labels (d'.treeAt root)) := by
  obtain ⟨c, δ, δ', kas, kbs, k, d', hplace, hgrows, hc, hδ, hlower, hkas, hends, hk, hδ', hkbs,
    hF⟩ := place?_fork h
  have hF' : d'.treeAt root = wrap (fr :: up) ((left ++ cons a kas anchors) ++
      cons ⟨c, .element ⟨Word.paragraph, []⟩⟩ nil
        ((δ.lower ++ (mid ++ δ'.lower)) ++ cons b kbs right)) := by
    rw [hF]
    simp only [append_assoc, cons_append]
  obtain ⟨hgrows₁, hF₁⟩ := attach_ends hgrows.wellFormed hF' block.kind number
  rw [← hstart, ← hstop] at hplace
  refine ⟨c, δ, δ', kas, kbs, k, _, placeOne_eq hplace, hgrows.trans hgrows₁, hc, hδ, hlower, hkas,
    hends, hk, hδ', hkbs, ?_, ?_⟩
  · rw [hF₁]
    simp only [append_assoc, cons_append]
  · have hs := h.sound
    rw [h.treeAt_root] at hs
    rw [hF₁]
    have hin := hs.of_wrap
    simp only [labels_append, labels_cons, sound_append] at hin
    rw [sound_cons, sound_append, sound_append, sound_cons] at hin
    obtain ⟨h₁, -, h₂, h₃, -, h₄⟩ := hin
    refine hs.wrap ?_ ?_
    · rw [← landmarks_eq_nil_iff, landmarks_append, landmarks_cons, h.landmarks_a]
      simp
    · have hk₁ := hδ.sound_kept
      have hk₂ := hδ'.sound_kept
      rw [hkas, labels_tree] at hk₁
      rw [hkbs, labels_tree] at hk₂
      have hanchor := sound_anchorLabel (anchorable_paragraph hmute) block.kind number
      simp only [labels_append, labels_cons, sound_append, labels_nil]
      rw [sound_cons, sound_cons, sound_append, sound_append, sound_append, sound_cons,
        sound_withEnd h.b_eq]
      exact ⟨⟨h₁, hk₁, h₂⟩, hanchor, ⟨hδ.sound_gone, h₃, hδ'.sound_gone⟩, hk₂, h₄⟩

end Fork

end Block

end WordTemplate
