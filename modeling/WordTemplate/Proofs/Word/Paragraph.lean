import WordTemplate.Block.Expansion
import WordTemplate.Proofs.Word.Sign
import WordTemplate.Proofs.Xml.Scope

/-!
# Blank paragraphs

A paragraph that shows nothing has no landmarks but blank texts and directives. So taking one out
leaves all anchors and all texts that can be seen: the signs are the same, up to one stretch of blank
ones (`Sheds`).
-/

namespace WordTemplate

open Xml Forest

/-! ## Blank signs -/

/-- The kind of directive that a text with these marks is. -/
def markKind? (marks : List String) : Option Directive.Kind :=
  marks.head?.bind Directive.Kind.ofName?

theorem attribute?_mark_eq (l : Label) : l.attribute? Word.markAttribute = l.marks.head? := by
  cases l with
  | text content => rfl
  | element tag =>
    rw [Label.attribute?, Label.marks]
    induction tag.attributes with
    | nil => rfl
    | cons a rest ih =>
      obtain ⟨k, v⟩ := a
      by_cases hk : k = Word.markAttribute
      · simp [hk]
      · have hb : (Word.markAttribute == k) = false := by simpa using Ne.symm hk
        simpa [hk, List.lookup_cons, hb] using ih

theorem mark?_eq (l : Label) : l.mark? = markKind? l.marks := by
  rw [Label.mark?, attribute?_mark_eq, markKind?]

namespace Sign

/-- Whether a reader would see nothing: a blank text, or the text of a directive. -/
def isBlank : Sign → Bool
  | .text marks content => (markKind? marks).any (· ≠ .placeholder) || Text.isBlankText content
  | .anchor _ => false

end Sign

section Blank

variable {mute : List String}

/-- The trees that show nothing have blank signs, if that is so of the runs that show nothing. -/
theorem isBlank_of_allBlank {blankRun : Forest Node → Bool} {f : Forest Node}
    (hrun : ∀ g, blankRun g = true → Sound mute (labels g) → ∀ s ∈ signs (labels g), s.isBlank = true)
    (h : Word.allBlank blankRun f = true) (hs : Sound mute (labels f)) :
    ∀ s ∈ signs (labels f), s.isBlank = true := by
  induction f with
  | nil => simp
  | cons node cs rest _ ih =>
    rw [Word.allBlank, Bool.and_eq_true] at h
    rw [labels_cons, sound_cons] at hs
    rw [labels_cons, signs_cons]
    intro s hmem
    rcases List.mem_append.mp hmem with hmem | hmem
    · have hnode := h.1
      unfold Word.isBlankNode at hnode
      split at hnode
      · next content hl =>
        rw [signs_eq_nil_of_quiet (hs.1.quiet_of_isMute (by rw [hl]; rfl))] at hmem
        simp at hmem
      · next tag hl =>
        split at hnode
        · next hp =>
          have hq := hs.1.quiet_of_isMute (Label.isMute_of_isProperty (by
            rw [hl]; exact hp))
          rw [signs_eq_nil_of_quiet hq] at hmem
          simp at hmem
        · split at hnode
          · cases hnode
          · next ha =>
            rw [Bool.not_eq_true] at ha
            split at hnode
            · next hname =>
              have hland : node.label.isLandmark = true := by
                rw [Label.isLandmark, hl]
                simp [Label.isNamed, Label.name?, hname]
              rw [signs_tree_of_isLandmark _ hland, List.mem_singleton] at hmem
              rw [hmem, Sign.of, ha]
              simp only [Bool.false_eq_true, if_false, Sign.isBlank]
              rwa [← mark?_eq]
            · next hname =>
              rw [Bool.and_eq_true] at hnode
              have hland : node.label.isLandmark = false := by
                rw [Label.isLandmark, ha, hl]
                simp [Label.isNamed, Label.name?, hname]
              rw [signs_tree _ hland] at hmem
              exact hrun cs hnode.2 hs.1.children s hmem
    · exact ih h.2 hs.2 s hmem

theorem isBlank_of_isBlankParagraph {f : Forest Node} (h : Word.isBlankParagraph f = true)
    (hs : Sound mute (labels f)) : ∀ s ∈ signs (labels f), s.isBlank = true :=
  isBlank_of_allBlank (fun g hg hsg => isBlank_of_allBlank (by simp) hg hsg) h hs

end Blank

/-! ## Signs around a spot -/

/-- Whether `x` and `z` are the signs before and after the spot below `up`, where landmarks can
be. -/
structure Around (mute : List String) (up : List (Frame Node)) (x z : List Sign) : Prop where
  isOpen : ∀ fr ∈ up, fr.value.label.isLandmark = false ∧ fr.value.label.isMute mute = false
  signs_eq : ∀ f, signs (labels (wrap up f)) = x ++ (signs (labels f) ++ z)

/-- Where landmarks can be, other sound trees can be put. -/
theorem Sound.wrap_of_open {mute : List String} {up : List (Frame Node)} {f g : Forest Node}
    (h : Sound mute (labels (Forest.wrap up f)))
    (hup : ∀ fr ∈ up, fr.value.label.isLandmark = false ∧ fr.value.label.isMute mute = false)
    (hg : Sound mute (labels g)) : Sound mute (labels (Forest.wrap up g)) := by
  induction up generalizing f g with
  | nil => exact hg
  | cons fr up ih =>
    have hin : Sound mute (labels (fr.before ++ cons fr.value f fr.after)) := by
      exact Sound.of_wrap h
    rw [labels_append, labels_cons, sound_append, sound_cons] at hin
    obtain ⟨hl, hm⟩ := hup fr (by simp)
    refine ih h (fun fr' h' => hup fr' (by simp [h'])) ?_
    rw [labels_append, labels_cons, sound_append, sound_cons, sound_tree_of_open hl hm]
    exact ⟨hin.1, hg, hin.2.2⟩

theorem exists_around {mute : List String} {up : List (Frame Node)}
    (h : ∀ fr ∈ up, fr.value.label.isLandmark = false ∧ fr.value.label.isMute mute = false) :
    Around mute up ((landmarksBefore up).map Landmark.sign)
      ((landmarksAfter up).map Landmark.sign) :=
  ⟨h, fun f => by
    rw [signs_labels, landmarks_wrap fun fr hfr => (h fr hfr).1, signs_labels]
    simp⟩

/-- The outermost of the nodes above a spot in a single tree. -/
theorem exists_outermost {fr : Frame Node} {up : List (Frame Node)} {f cs : Forest Node}
    {node : Node} (h : wrap (fr :: up) f = tree node cs) :
    ∃ up', fr :: up = up' ++ [⟨nil, node, nil⟩] := by
  obtain ⟨up', fr', he⟩ : ∃ up' fr', fr :: up = up' ++ [fr'] :=
    ⟨_, _, (List.dropLast_concat_getLast (List.cons_ne_nil fr up)).symm⟩
  refine ⟨up', ?_⟩
  rw [he, wrap_append] at h
  obtain ⟨before, value, after⟩ := fr'
  simp only [wrap] at h
  cases before with
  | nil =>
    rw [nil_append] at h
    obtain ⟨rfl, -, rfl⟩ : value = node ∧ _ ∧ after = nil := by
      simpa [tree] using h
    exact he
  | cons b bs rest =>
    have : rest ++ cons value (wrap up' f) after = nil := (Forest.cons.inj h).2.2
    cases rest <;> simp at this

/-- A tree keeps the node at its top when something else is put below. -/
theorem exists_tree_wrap {fr : Frame Node} {up : List (Frame Node)} {f cs : Forest Node} {node : Node}
    (h : wrap (fr :: up) f = tree node cs) (g : Forest Node) : ∃ cs', wrap (fr :: up) g = tree node cs' := by
  obtain ⟨up', hup⟩ := exists_outermost h
  rw [hup, wrap_append]
  exact ⟨wrap up' g, rfl⟩

/-- A node other than the one at the top of a tree has nodes above it. -/
theorem exists_frame_of_ne {up : List (Frame Node)} {l as r cs : Forest Node} {a node : Node}
    (h : wrap up (l ++ cons a as r) = tree node cs) (hne : a ≠ node) : ∃ fr up', up = fr :: up' := by
  cases up with
  | cons fr up => exact ⟨fr, up, rfl⟩
  | nil =>
    exfalso
    simp only [wrap] at h
    cases l with
    | nil => exact hne (Forest.cons.inj h).1
    | cons b bs rest =>
      have : rest ++ cons a as r = nil := (Forest.cons.inj h).2.2
      cases rest <;> simp at this

/-! ## Scopes -/

/-- Whether the tree at `scope` is sound, is no landmark and shows `ss`. -/
structure Scoped (d : Document) (scope : NodeId) (mute : List String) (ss : List Sign) : Prop where
  wellFormed : d.WellFormed
  exists_eq : ∃ node cs, d.treeAt scope = tree node cs ∧ node.label.isLandmark = false
  sound : Sound mute (labels (d.treeAt scope))
  signs_eq : signs (labels (d.treeAt scope)) = ss

section Scoped

variable {d₀ d d' : Document} {scope : NodeId} {mute : List String} {u v : List Sign} {s : Sign}

theorem Scoped.mem_ids {ss : List Sign} (h : Scoped d scope mute ss) : scope ∈ d.ids := by
  obtain ⟨node, cs, ht, -⟩ := h.exists_eq
  exact (h.wellFormed.mem_ids_of_treeAt ht).1

/-- The scope itself is no landmark. -/
theorem Scoped.exists_frame {ss : List Sign} {up : List (Frame Node)} {l as r : Forest Node}
    {a : Node} (h : Scoped d scope mute ss) (ht : d.treeAt scope = wrap up (l ++ cons a as r))
    (hl : a.label.isLandmark = true) : ∃ fr up', up = fr :: up' := by
  obtain ⟨node, cs, htree, hnode⟩ := h.exists_eq
  refine exists_frame_of_ne (ht.symm.trans htree) ?_
  rintro rfl
  rw [hl] at hnode
  cases hnode

/-- What is around a landmark of the scope. -/
theorem Scoped.around {ss : List Sign} {up : List (Frame Node)} {l as r : Forest Node}
    {a : Node} (h : Scoped d scope mute ss) (ht : d.treeAt scope = wrap up (l ++ cons a as r))
    (hl : a.label.isLandmark = true) : Around mute up ((landmarksBefore up).map Landmark.sign)
      ((landmarksAfter up).map Landmark.sign) := by
  refine exists_around ((ht ▸ h.sound).open_of_wrap ?_)
  rw [labels_append, labels_cons, quiet_append, quiet_cons, hl]
  simp

/-- Where in the scope a sign is shown. -/
theorem Scoped.exists_spot (h : Scoped d scope mute (u ++ s :: v)) :
    ∃ fr up l a as r x z, d.treeAt scope = wrap (fr :: up) (l ++ cons a as r) ∧
      Around mute (fr :: up) x z ∧ a.label.isLandmark = true ∧ Sign.of a.label (labels as) = s ∧
      u = x ++ signs (labels l) ∧ v = signs (labels r) ++ z := by
  have hsigns := h.signs_eq
  rw [signs_labels] at hsigns
  obtain ⟨u', t, hl, rfl, ht⟩ := List.map_eq_append_iff.mp hsigns
  obtain ⟨α, v', rfl, rfl, rfl⟩ := List.map_eq_cons_iff.mp ht
  obtain ⟨up, l, a, as, r, hf, hup, hland, rfl, rfl, rfl⟩ := exists_landmark_spot hl
  obtain ⟨fr, up, rfl⟩ := h.exists_frame hf hland
  refine ⟨fr, up, l, a, as, r, _, _, hf, h.around hf hland, hland, rfl, ?_, ?_⟩
  · rw [signs_labels]
    simp
  · rw [signs_labels]
    simp

/-- Where in the scope a landmark is. -/
theorem Scoped.exists_spot_of_mem {ss : List Sign} {a : Node} (h : Scoped d scope mute ss)
    (ha : a ∈ (d.treeAt scope).toList) (hl : a.label.isLandmark = true) :
    ∃ fr up l as r x z, d.treeAt scope = wrap (fr :: up) (l ++ cons a as r) ∧
      Around mute (fr :: up) x z ∧
      ss = (x ++ signs (labels l)) ++ Sign.of a.label (labels as) :: (signs (labels r) ++ z) := by
  obtain ⟨up, l, a', as, r, ht, he, -, -⟩ :=
    exists_wrap (any_iff.mpr ⟨a, ha, (beq_self_eq_true a : (a == a) = true)⟩)
  obtain rfl : a = a' := by simpa using he
  obtain ⟨fr, up, rfl⟩ := h.exists_frame ht hl
  have haround := h.around ht hl
  refine ⟨fr, up, l, as, r, _, _, ht, haround, ?_⟩
  rw [← h.signs_eq, ht, haround.signs_eq, labels_append, labels_cons, signs_append, signs_cons,
    signs_tree_of_isLandmark _ hl]
  simp

/-- A scope after what is in a spot has changed. -/
theorem Scoped.change {ss : List Sign} {fr : Frame Node} {up : List (Frame Node)}
    {f g : Forest Node} {x z : List Sign} (h : Scoped d scope mute ss) (wf' : d'.WellFormed)
    (hf : d.treeAt scope = wrap (fr :: up) f) (hg : d'.treeAt scope = wrap (fr :: up) g)
    (ha : Around mute (fr :: up) x z) (hs : Sound mute (labels g)) :
    Scoped d' scope mute (x ++ (signs (labels g) ++ z)) where
  wellFormed := wf'
  exists_eq := by
    obtain ⟨node, cs, htree, hnode⟩ := h.exists_eq
    obtain ⟨up', hup⟩ := exists_outermost (hf.symm.trans htree)
    rw [hup, wrap_append] at hg
    exact ⟨node, wrap up' g, hg, hnode⟩
  sound := by
    have := h.sound
    rw [hf] at this
    rw [hg]
    exact this.wrap_of_open ha.isOpen hs
  signs_eq := by
    rw [hg, ha.signs_eq]

end Scoped

/-! ## Taking out a paragraph and an anchor -/

/-- Whether `ss'` is `ss` without one stretch of blank signs; without any unless `strip`. -/
def Sheds (strip : Bool) (ss ss' : List Sign) : Prop :=
  ∃ x y z, ss = x ++ (y ++ z) ∧ ss' = x ++ z ∧ (∀ s ∈ y, s.isBlank = true) ∧
    (strip = false → y = [])

theorem Sheds.refl (strip : Bool) (ss : List Sign) : Sheds strip ss ss :=
  ⟨ss, [], [], by simp, by simp, by simp, fun _ => rfl⟩

theorem Sheds.eq {ss ss' : List Sign} (h : Sheds false ss ss') : ss' = ss := by
  obtain ⟨x, y, z, rfl, rfl, -, hy⟩ := h
  rw [hy rfl, List.nil_append]

theorem anchorIds_of_isBlank {ss : List Sign} (h : ∀ s ∈ ss, s.isBlank = true) : anchorIds ss = [] := by
  rw [anchorIds, List.filterMap_eq_nil_iff]
  intro s hs
  have := h s hs
  cases s with
  | text marks content => rfl
  | anchor id => cases this

theorem Sheds.anchorIds_eq {strip : Bool} {ss ss' : List Sign} (h : Sheds strip ss ss') :
    anchorIds ss' = anchorIds ss := by
  obtain ⟨x, y, z, rfl, rfl, hy, -⟩ := h
  simp [anchorIds_of_isBlank hy]

section Detach

variable {d₀ d : Document} {scope p : NodeId} {mute : List String} {ss : List Sign}

/-- Taking out something above the scope. -/
theorem Xml.Document.Within.detach_above (h : d₀.Within d scope) (wf₀ : d₀.WellFormed)
    (hs : scope ∈ d₀.ids) (hp : scope ∈ Xml.ids (d.treeAt p)) :
    d₀.Within (d.detach p) scope ∧ (d.detach p).treeAt scope = d.treeAt scope := by
  have wf := h.grows.wellFormed
  have hscope : (d.detach p).treeAt scope = d.treeAt scope := by
    rw [wf.treeAt_detach]
    split
    · next he => rw [he]
    · next hne => exact prune_eq_self_of_not_mem (wf.not_mem_treeAt hp hne)
  refine ⟨⟨h.grows.trans (wf.grows_detach p), ?_, fun n hn => ?_⟩, hscope⟩
  · rw [hscope]
    exact h.mem_or_fresh
  · have hn' := h.apart wf₀ hn
    rw [wf.treeAt_detach, ← h.treeAt_eq n hn]
    split
    · next he => rw [he]
    · refine prune_eq_self_of_not_mem fun hpn => ?_
      -- Otherwise the scope would be below `n`.
      rw [← wf.treeAt_treeAt hpn] at hp
      exact hn'.disjoint scope (mem_ids_of_mem_treeAt hp)
        (wf.mem_treeAt_self (h.grows.mem_ids _ hs))

/-- Taking out a paragraph that shows nothing sheds what is in it. -/
theorem detachEmptyParagraph_spec (h : d₀.Within d scope) (wf₀ : d₀.WellFormed)
    (hs : scope ∈ d₀.ids) (hS : Scoped d scope mute ss)
    (hp : scope ∈ Xml.ids (d.treeAt p) ∨ ∃ fr up l pn pcs r x z, pn.id = p ∧
      d.treeAt scope = wrap (fr :: up) (l ++ cons pn pcs r) ∧ Around mute (fr :: up) x z ∧
      pn.label.isLandmark = false) :
    d₀.Within (d.detachEmptyParagraph p) scope ∧
      ∃ ss', Scoped (d.detachEmptyParagraph p) scope mute ss' ∧ Sheds true ss ss' := by
  unfold Document.detachEmptyParagraph
  split
  swap
  · exact ⟨h, ss, hS, .refl true ss⟩
  next hempty =>
    rw [Bool.and_eq_true] at hempty
    have wf := h.grows.wellFormed
    rcases hp with hp | ⟨fr, up, l, pn, pcs, r, x, z, rfl, ht, ha, hl⟩
    · obtain ⟨hw, htree⟩ := h.detach_above wf₀ hs hp
      refine ⟨hw, ss, ⟨hw.grows.wellFormed, ?_, ?_, ?_⟩, .refl true ss⟩
      · rw [htree]
        exact hS.exists_eq
      · rw [htree]
        exact hS.sound
      · rw [htree]
        exact hS.signs_eq
    · have hw := h.detach wf₀ (Document.mem_of_spot ht)
      have htree := Document.treeAt_detach_spot wf ht
      have hsound : Sound mute (labels (l ++ cons pn pcs r)) := by
        have := hS.sound
        rw [ht] at this
        exact this.of_wrap
      have hblank : ∀ s ∈ signs (labels (tree pn pcs)), s.isBlank = true := by
        rw [labels_tree, signs_tree _ hl]
        refine isBlank_of_isBlankParagraph ?_ (show Sound mute (labels pcs) from ?_)
        · have := hempty.1
          rwa [Document.isParagraphEmpty, wf.treeAt_of_spot ht] at this
        · rw [labels_append, labels_cons, sound_append, sound_cons] at hsound
          exact hsound.2.1.children
      rw [labels_append, labels_cons, sound_append, sound_cons] at hsound
      have hnew : Sound mute (labels (l ++ r)) := by
        rw [labels_append, sound_append]
        exact ⟨hsound.1, hsound.2.2⟩
      refine ⟨hw, _, hS.change hw.grows.wellFormed ht htree ha hnew, x ++ signs (labels l),
        signs (labels (tree pn pcs)), signs (labels r) ++ z, ?_, ?_, hblank, by simp⟩
      · rw [← hS.signs_eq, ht, ha.signs_eq, labels_append, labels_cons, signs_append, signs_cons]
        simp
      · rw [labels_append, signs_append]
        simp

variable {fr : Frame Node} {up : List (Frame Node)} {l as r : Forest Node} {a : Node}
  {x z : List Sign}

/-- The nodes above a node of the scope, after that one was taken out. -/
theorem above_detach (hS : Scoped d scope mute ss)
    (ht : d.treeAt scope = wrap (fr :: up) (l ++ cons a as r)) (ha : Around mute (fr :: up) x z)
    (hp : p ∈ d.ancestors a.id) :
    scope ∈ Xml.ids ((d.detach a.id).treeAt p) ∨ ∃ fr' up' l' pn pcs r' x' z', pn.id = p ∧
      (d.detach a.id).treeAt scope = wrap (fr' :: up') (l' ++ cons pn pcs r') ∧
      Around mute (fr' :: up') x' z' ∧ pn.label.isLandmark = false := by
  have wf := hS.wellFormed
  have hdetach := Document.treeAt_detach_spot wf ht
  obtain ⟨node, cs, htree, -⟩ := hS.exists_eq
  obtain ⟨hmem, hnode⟩ := wf.mem_ids_of_treeAt htree
  obtain ⟨up₀, hup⟩ := exists_outermost (ht.symm.trans htree)
  have htree' : d.treeAt scope = tree node (wrap up₀ (l ++ cons a as r)) := by
    rw [ht, hup, wrap_append]
    rfl
  obtain ⟨l', r', outer, hd, -⟩ := wf.exists_below htree'
  rw [Document.ancestors_eq wf hd, List.mem_map] at hp
  obtain ⟨fp, hfp, rfl⟩ := hp
  rw [List.mem_append, List.mem_cons] at hfp
  rcases hfp with hfp | rfl | hfp
  · -- A node between the scope and the node that was taken out.
    obtain ⟨inner, rest, rfl⟩ := List.append_of_mem hfp
    rw [hup, List.append_assoc, List.cons_append] at hdetach ha
    obtain ⟨fr', up', hrest⟩ : ∃ fr' up', rest ++ [(⟨nil, node, nil⟩ : Frame Node)] = fr' :: up' :=
      List.exists_cons_of_ne_nil (by simp)
    rw [hrest] at hdetach ha
    rw [wrap_append] at hdetach
    exact .inr ⟨fr', up', fp.before, fp.value, _, fp.after, _, _, rfl, hdetach,
      exists_around fun fr hfr => ha.isOpen fr (by simp [List.mem_cons.mp hfr]),
      (ha.isOpen fp (by simp)).1⟩
  · left
    change scope ∈ Xml.ids ((d.detach a.id).treeAt node.id)
    rw [hnode]
    exact (wf.grows_detach a.id).wellFormed.mem_treeAt_self ((wf.grows_detach a.id).mem_ids _ hmem)
  · -- A node above the scope.
    obtain ⟨o₁, o₂, rfl⟩ := List.append_of_mem hfp
    have habove : d.treeAt fp.value.id =
        wrap (up₀ ++ ⟨l', node, r'⟩ :: (o₁ ++ [⟨nil, fp.value, nil⟩])) (l ++ cons a as r) := by
      have hspot : d.trees = wrap o₂ (fp.before ++ cons fp.value
          (wrap (up₀ ++ ⟨l', node, r'⟩ :: o₁) (l ++ cons a as r)) fp.after) := by
        rw [hd, ← List.cons_append, ← List.append_assoc, wrap_append (up₀ ++ ⟨l', node, r'⟩ :: o₁)]
        rfl
      rw [Document.treeAt_eq wf hspot, ← List.cons_append, ← List.append_assoc,
        wrap_append (up₀ ++ ⟨l', node, r'⟩ :: o₁)]
      rfl
    obtain ⟨fr', up', hcons⟩ : ∃ fr' up',
        up₀ ++ ⟨l', node, r'⟩ :: (o₁ ++ [(⟨nil, fp.value, nil⟩ : Frame Node)]) = fr' :: up' :=
      List.exists_cons_of_ne_nil (by simp)
    left
    rw [hcons] at habove
    rw [Document.treeAt_detach_spot wf habove, ← hcons, ids_wrap, ← hnode]
    refine List.mem_append_left _ (List.mem_map_of_mem ?_)
    exact value_mem_opening
      (show (⟨l', node, r'⟩ : Frame Node) ∈ up₀ ++ ⟨l', node, r'⟩ :: _ by simp)

/-- Taking out an anchor sheds at most what is left in its paragraph. -/
theorem removeAnchor_spec (strip : Bool) (h : d₀.Within d scope) (wf₀ : d₀.WellFormed)
    (hs : scope ∈ d₀.ids) (hS : Scoped d scope mute ss)
    (ht : d.treeAt scope = wrap (fr :: up) (l ++ cons a as r)) (ha : Around mute (fr :: up) x z) :
    d₀.Within (Block.removeAnchor strip a.id d) scope ∧
      ∃ ss', Scoped (Block.removeAnchor strip a.id d) scope mute ss' ∧
        Sheds strip (x ++ (signs (labels (l ++ r)) ++ z)) ss' := by
  have wf := hS.wellFormed
  have hw := h.detach wf₀ (Document.mem_of_spot ht)
  have hsound := hS.sound
  rw [ht] at hsound
  have hin := hsound.of_wrap
  rw [labels_append, labels_cons, sound_append, sound_cons] at hin
  have hout := hS.change hw.grows.wellFormed ht (Document.treeAt_detach_spot wf ht) ha (by
    rw [labels_append, sound_append]
    exact ⟨hin.1, hin.2.2⟩)
  unfold Block.removeAnchor
  cases hp : d.ancestorNamed? a.id Word.paragraph with
  | none => exact ⟨hw, _, hout, .refl strip _⟩
  | some p =>
    cases strip with
    | false => exact ⟨hw, _, hout, .refl false _⟩
    | true =>
      exact detachEmptyParagraph_spec hw wf₀ hs hout
        (above_detach hS ht ha (List.mem_of_find?_eq_some hp))

end Detach

end WordTemplate
