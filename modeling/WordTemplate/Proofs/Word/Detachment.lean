import Mathlib.Data.List.Forall2
import WordTemplate.Proofs.Word.Run

/-!
# Taking nodes out of a chart

A sound tree stays sound if nodes are taken out of it. If nothing was a landmark in what is taken
out, the landmarks stay, and at most the content of a text changes that is no directive (`Alike`).

* `detach_cases`: the tree of a scope after some node was taken out of the document.
* `Thins`: nodes are taken out, and nothing else is done.
* `Loses`: what taking out something without landmarks does to a forest.
* `detachFromRun_alike`: the chart after something was taken out that is no landmark.
-/

namespace WordTemplate

open Xml Forest

/-! ## Landmarks up to what plain texts say -/

/-- Whether two landmarks differ at most in the content of a text that is no directive. -/
def Landmark.Alike (x y : Landmark) : Prop :=
  y = x ∨ ∃ s s', x.sign = .text [] s ∧ y = { x with sign := .text [] s' }

namespace Landmark.Alike

variable {x y z : Landmark}

theorem refl (x : Landmark) : x.Alike x := .inl rfl

theorem trans (h : x.Alike y) (h' : y.Alike z) : x.Alike z := by
  rcases h with rfl | ⟨s, s', hx, rfl⟩
  · exact h'
  · rcases h' with rfl | ⟨t, t', -, rfl⟩
    · exact .inr ⟨s, s', hx, rfl⟩
    · exact .inr ⟨s, t', hx, rfl⟩

theorem below (h : x.Alike y) (outer : List Crumb) : (x.below outer).Alike (y.below outer) := by
  rcases h with rfl | ⟨s, s', hx, rfl⟩
  · exact refl _
  · exact .inr ⟨s, s', hx, rfl⟩

theorem node_eq (h : x.Alike y) : y.node = x.node := by
  rcases h with rfl | ⟨-, -, -, rfl⟩ <;> rfl

theorem path_eq (h : x.Alike y) : y.path = x.path := by
  rcases h with rfl | ⟨-, -, -, rfl⟩ <;> rfl

end Landmark.Alike

/-- The same of all landmarks of two lists, one by one. -/
abbrev Alike (ls ls' : List Landmark) : Prop :=
  List.Forall₂ Landmark.Alike ls ls'

theorem Alike.refl (ls : List Landmark) : Alike ls ls :=
  List.forall₂_same.mpr fun x _ => Landmark.Alike.refl x

theorem Alike.trans {ls ls' ls'' : List Landmark} (h : Alike ls ls') (h' : Alike ls' ls'') :
    Alike ls ls'' := by
  induction h generalizing ls'' with
  | nil => exact h'
  | cons hx _ ih =>
    cases h' with
    | cons hy hrest => exact .cons (hx.trans hy) (ih hrest)

theorem Alike.append {u u' v v' : List Landmark} (hu : Alike u u') (hv : Alike v v') :
    Alike (u ++ v) (u' ++ v') :=
  List.rel_append hu hv

theorem Alike.below {ls ls' : List Landmark} (h : Alike ls ls') (outer : List Crumb) :
    Alike (ls.map (·.below outer)) (ls'.map (·.below outer)) := by
  induction h with
  | nil => exact .nil
  | cons hx _ ih => exact .cons (hx.below outer) ih

/-! ## Thinner forests -/

/-- Whether `g` has no labels but those of `f` and is sound if `f` is. -/
structure Thinner (mute : List String) (f g : Forest Label) : Prop where
  subset : ∀ l ∈ g.toList, l ∈ f.toList
  sound : Sound mute f → Sound mute g

section Thinner

variable {mute : List String} {f g : Forest Label}

theorem Thinner.quiet (h : Thinner mute f g) (hf : Quiet f) : Quiet g :=
  fun l hl => hf l (h.subset l hl)

theorem Thinner.onlyText (h : Thinner mute f g) (hf : OnlyText f) : OnlyText g :=
  fun l hl => hf l (h.subset l hl)

/-- Other trees around, and a node above. -/
theorem Thinner.around (h : Thinner mute f g) (before after : Forest Label) (l : Label) :
    Thinner mute (before ++ cons l f after) (before ++ cons l g after) where
  subset := by
    intro m hm
    simp only [toList_append, toList, List.mem_append, List.mem_cons] at hm ⊢
    rcases hm with hm | hm | hm | hm
    · exact .inl hm
    · exact .inr (.inl hm)
    · exact .inr (.inr (.inl (h.subset m hm)))
    · exact .inr (.inr (.inr hm))
  sound := by
    rw [sound_append, sound_append, sound_cons, sound_cons]
    rintro ⟨hb, ht, ha⟩
    refine ⟨hb, ⟨fun hl => ?_, fun hm => ?_, h.sound ht.children, trivial⟩, ha⟩
    · obtain ⟨hq, hn, honly⟩ := ht.1 hl
      exact ⟨h.quiet hq, hn, fun hmarks => h.onlyText (honly hmarks)⟩
    · obtain ⟨hl, hq⟩ := ht.2.1 hm
      exact ⟨hl, h.quiet hq⟩

theorem Thinner.wrap {up : List (Frame Node)} {f g : Forest Node}
    (h : Thinner mute (labels f) (labels g)) :
    Thinner mute (labels (Forest.wrap up f)) (labels (Forest.wrap up g)) := by
  induction up generalizing f g with
  | nil => exact h
  | cons fr up ih =>
    refine ih ?_
    simp only [labels_append, labels_cons]
    exact h.around _ _ _

/-- Taking out a tree. -/
theorem thinner_detach (mute : List String) (l t r : Forest Label) :
    Thinner mute (l ++ (t ++ r)) (l ++ r) where
  subset := by
    intro m hm
    simp only [toList_append, List.mem_append] at hm ⊢
    exact hm.imp_right .inr
  sound := by
    simp only [sound_append]
    rintro ⟨hl, -, hr⟩
    exact ⟨hl, hr⟩

/-- The landmarks after a node above has been put around forests with landmarks alike. If the node is
a text, it is no directive, because there are elements in it. -/
theorem alike_around {f g before after : Forest Node} {node : Node}
    (hs : Sound mute (labels (tree node f))) (hf : ¬ OnlyText (labels f))
    (h : Alike (landmarks f) (landmarks g)) :
    Alike (landmarks (before ++ cons node f after)) (landmarks (before ++ cons node g after)) := by
  rw [landmarks_append, landmarks_append, landmarks_cons, landmarks_cons]
  refine (Alike.refl _).append (Alike.append ?_ (Alike.refl _))
  by_cases hl : node.label.isLandmark = true
  · rw [landmarks_tree_of_isLandmark f hl, landmarks_tree_of_isLandmark g hl]
    refine .cons ?_ .nil
    by_cases ha : node.label.isAnchor = true
    · exact .inl (by simp only [signOf, ha, if_true])
    · have hmarks : node.label.marks = [] := by
        by_contra hm
        exact hf ((hs.1 hl).2.2 hm)
      refine .inr ⟨innerText (labels f), innerText (labels g), ?_, ?_⟩ <;>
        simp only [signOf, ha, hmarks, Bool.false_eq_true, if_false]
  · rw [Bool.not_eq_true] at hl
    rw [landmarks_tree f hl, landmarks_tree g hl]
    exact h.below _

theorem alike_wrap {up : List (Frame Node)} {f g : Forest Node}
    (hs : Sound mute (labels (Forest.wrap up f))) (hf : ¬ OnlyText (labels f))
    (h : Alike (landmarks f) (landmarks g)) :
    Alike (landmarks (Forest.wrap up f)) (landmarks (Forest.wrap up g)) := by
  induction up generalizing f g with
  | nil => exact h
  | cons fr up ih =>
    have hin : Sound mute (labels (fr.before ++ cons fr.value f fr.after)) := by
      exact Sound.of_wrap hs
    rw [labels_append, labels_cons, sound_append, sound_cons] at hin
    refine ih hs (fun honly => hf fun l hl => honly l ?_) (alike_around hin.2.1 hf h)
    simp only [labels_append, labels_cons, toList_append, toList, List.mem_append, List.mem_cons]
    exact .inr (.inr (.inl hl))

end Thinner

/-! ## Documents -/

section Detach

variable {d : Document} {root n : NodeId} {mute : List String}

/-- A node of the scope other than the scope itself has nodes above it. -/
theorem exists_spot_below (wf : d.WellFormed) (hn : n ∈ Xml.ids (d.treeAt root)) (hne : n ≠ root) :
    ∃ fr up l a as r, a.id = n ∧ d.treeAt root = wrap (fr :: up) (l ++ cons a as r) := by
  obtain ⟨up, l, a, as, r, ht, rfl⟩ := exists_spot hn
  cases up with
  | cons fr up => exact ⟨fr, up, l, a, as, r, rfl, ht⟩
  | nil =>
    -- The scope has one tree, so a node at its top is the scope itself.
    have hroot : root ∈ d.ids := by
      by_contra h
      rw [wf.treeAt_eq_nil h] at hn
      simp at hn
    obtain ⟨node, cs, hid, htree⟩ := wf.exists_treeAt hroot
    rw [ht] at htree
    cases l with
    | nil =>
      obtain ⟨rfl, -⟩ := Forest.cons.inj htree
      exact absurd hid hne
    | cons _ _ rest =>
      have : rest ++ cons a as r = nil := (Forest.cons.inj htree).2.2
      cases rest <;> simp at this

/-- The tree of a scope after a node was taken out. -/
theorem detach_cases (wf : d.WellFormed) (root n : NodeId) :
    (d.detach n).treeAt root = d.treeAt root ∨
      ∃ fr up l a as r, a.id = n ∧ d.treeAt root = wrap (fr :: up) (l ++ cons a as r) ∧
        (d.detach n).treeAt root = wrap (fr :: up) (l ++ r) := by
  by_cases hne : n = root
  · exact .inl (by rw [wf.treeAt_detach, if_pos hne.symm, hne])
  by_cases hmem : n ∈ Xml.ids (d.treeAt root)
  · obtain ⟨fr, up, l, a, as, r, rfl, ht⟩ := exists_spot_below wf hmem hne
    exact .inr ⟨fr, up, l, a, as, r, rfl, ht, Document.treeAt_detach_spot wf ht⟩
  · rw [wf.treeAt_detach, if_neg fun h => hne h.symm]
    exact .inl (prune_eq_self_of_not_mem hmem)

theorem treeAt_detach_of_not_mem (wf : d.WellFormed) (hn : n ∉ Xml.ids (d.treeAt root)) :
    (d.detach n).treeAt root = d.treeAt root := by
  rcases detach_cases wf root n with h | ⟨fr, up, l, a, as, r, rfl, ht, -⟩
  · exact h
  · exact absurd (Document.mem_of_spot ht) hn

/-- A node whose parent is in a tree is in that tree. -/
theorem Xml.Document.WellFormed.mem_of_parent?_mem {m : NodeId} (wf : d.WellFormed)
    (hp : d.parent? n = some m) (hm : m ∈ Xml.ids (d.treeAt root)) : n ∈ Xml.ids (d.treeAt root) := by
  obtain ⟨up, l, a, as, r, htrees, rfl⟩ := exists_spot (wf.mem_ids_of_parent? (by rw [hp]; rfl))
  rw [Document.parent?_eq wf htrees] at hp
  cases up with
  | nil => simp at hp
  | cons fr up =>
    have hm' : fr.value.id = m := by simpa using hp
    have htree : d.treeAt m = tree fr.value (l ++ cons a as r) := by
      rw [← hm']
      exact Document.treeAt_eq wf htrees
    rw [← wf.treeAt_treeAt hm] at htree
    refine Xml.mem_ids_of_mem_treeAt (n := m) ?_
    rw [htree]
    simp

/-- Taking nodes out changes no label. -/
theorem label?_detach (wf : d.WellFormed) (n m : NodeId) : (d.detach n).label? m = d.label? m := by
  by_cases hm : m ∈ d.ids
  · obtain ⟨node, cs, -, htree⟩ := wf.exists_treeAt hm
    rcases detach_cases wf m n with h | ⟨fr, up, l, a, as, r, -, ht, hd⟩
    · rw [Document.label?, Document.label?, h]
    · obtain ⟨up', hup⟩ := exists_outermost (ht.symm.trans htree)
      rw [Document.label?, Document.label?, hd, ht, hup, wrap_append, wrap_append]
      rfl
  · have hm' : m ∉ (d.detach n).ids := by
      intro h
      rcases (wf.grows_detach n).mem_or_fresh m h with h | h
      · exact hm h
      · have := (wf.grows_detach n).wellFormed.lt_fresh m ‹_›
        rw [wf.fresh_detach] at this
        omega
    rw [Document.label?, Document.label?, wf.treeAt_eq_nil hm,
      (wf.grows_detach n).wellFormed.treeAt_eq_nil hm']

theorem detachFromRun_cases (d : Document) (n : NodeId) :
    d.detachFromRun n = d.detach n ∨
      ∃ run, d.parent? n = some run ∧ d.detachFromRun n = (d.detach n).detach run := by
  rw [Document.detachFromRun]
  cases d.parent? n with
  | none => exact .inl rfl
  | some run =>
    dsimp only
    split
    · exact .inr ⟨run, rfl, rfl⟩
    · exact .inl rfl

/-- Whether nodes have been taken out between `d` and `d'`, and nothing else has been done to the tree
at `root`. -/
structure Thins (mute : List String) (d d' : Document) (root : NodeId) : Prop where
  grows : d.Grows d'
  label?_eq : ∀ m, d'.label? m = d.label? m
  thinner : Thinner mute (labels (d.treeAt root)) (labels (d'.treeAt root))

namespace Thins

variable {d₁ d₂ : Document}

theorem refl (wf : d.WellFormed) : Thins mute d d root :=
  ⟨.refl wf, fun _ => rfl, fun _ h => h, id⟩

theorem trans (h₁ : Thins mute d d₁ root) (h₂ : Thins mute d₁ d₂ root) : Thins mute d d₂ root where
  grows := h₁.grows.trans h₂.grows
  label?_eq m := (h₂.label?_eq m).trans (h₁.label?_eq m)
  thinner := ⟨fun l hl => h₁.thinner.subset l (h₂.thinner.subset l hl),
    fun h => h₂.thinner.sound (h₁.thinner.sound h)⟩

theorem detach (wf : d.WellFormed) (n : NodeId) : Thins mute d (d.detach n) root where
  grows := wf.grows_detach n
  label?_eq := label?_detach wf n
  thinner := by
    rcases detach_cases wf root n with h | ⟨fr, up, l, a, as, r, -, ht, hd⟩
    · rw [h]
      exact ⟨fun _ h => h, id⟩
    · rw [ht, hd]
      refine Thinner.wrap ?_
      rw [show l ++ cons a as r = l ++ (tree a as ++ r) from rfl, labels_append, labels_append,
        labels_append]
      exact thinner_detach mute _ _ _

theorem detachFromRun (wf : d.WellFormed) (n : NodeId) : Thins mute d (d.detachFromRun n) root := by
  rcases detachFromRun_cases d n with h | ⟨run, -, h⟩ <;> rw [h]
  · exact detach wf n
  · exact (detach wf n).trans (detach (wf.grows_detach n).wellFormed run)

/-- Taking out nodes one after another. -/
theorem foldl {f : Document → NodeId → Document}
    (hf : ∀ (d : Document) n, d.WellFormed → Thins mute d (f d n) root) (wf : d.WellFormed)
    (ns : List NodeId) : Thins mute d (ns.foldl f d) root := by
  induction ns generalizing d with
  | nil => exact refl wf
  | cons n ns ih => exact (hf d n wf).trans (ih (hf d n wf).grows.wellFormed)

end Thins

end Detach

/-! ## Charts -/

/-- Whether something without landmarks was taken out of `f`: the landmarks are the same, or they are so in the spot
from which it was taken, where there was a node with the label. -/
inductive Loses (label : Label) : Forest Node → Forest Node → Prop where
  | same {f g : Forest Node} : landmarks f = landmarks g → Loses label f g
  | spot {up : List (Frame Node)} {f g : Forest Node} : landmarks f = landmarks g → label ∈ (labels f).toList →
      Loses label (wrap up f) (wrap up g)

section Charted

variable {d d' : Document} {root n : NodeId} {mute : List String} {ls : List Landmark} {label : Label}

/-- The label of an element among others. -/
theorem not_onlyText {f : Forest Label} (hlabel : label ∈ f.toList) (helement : label.isElement = true) :
    ¬ OnlyText f := by
  intro h
  rw [h label hlabel] at helement
  cases helement

theorem Loses.alike {f g : Forest Node} (h : Loses label f g) (hs : Sound mute (labels f))
    (helement : label.isElement = true) : Alike (landmarks f) (landmarks g) := by
  cases h with
  | same h =>
    rw [h]
    exact .refl _
  | spot h hlabel => exact alike_wrap hs (not_onlyText hlabel helement) (h ▸ .refl _)

/-- The chart after nodes have been taken out. -/
theorem Charted.of_thins (hC : Charted d root mute ls) (h : Thins mute d d' root) :
    Charted d' root mute (landmarks (d'.treeAt root)) := by
  refine ⟨h.grows.wellFormed, ?_, h.thinner.sound hC.sound, rfl⟩
  -- The scope keeps its label, so it is still a single tree.
  obtain ⟨node, cs, hnode, hland⟩ := hC.exists_eq
  obtain ⟨node', cs', -, hnode'⟩ := h.grows.wellFormed.exists_treeAt (h.grows.mem_ids _ hC.mem_ids)
  have hl := h.label?_eq root
  rw [Document.label?, Document.label?, hnode, hnode'] at hl
  exact ⟨node', cs', hnode', (Option.some.inj hl : node'.label = node.label) ▸ hland⟩

/-- A mute node has no landmarks. -/
theorem Charted.landmarks_mute {up : List (Frame Node)} {l as r : Forest Node} {a : Node}
    (hC : Charted d root mute ls) (ht : d.treeAt root = wrap up (l ++ cons a as r))
    (hmute : a.label.isMute mute = true) : landmarks (tree a as) = [] := by
  have hspot : Sound mute (labels (l ++ cons a as r)) := .of_wrap (ht ▸ hC.sound)
  rw [labels_append, labels_cons, sound_append, sound_cons] at hspot
  exact landmarks_eq_nil_iff.mpr (hspot.2.1.quiet_of_isMute hmute)

/-- Taking out a mute node. -/
theorem Charted.loses_detach (hC : Charted d root mute ls) (hn : d.label? n = some label)
    (hmute : label.isMute mute = true) : Loses label (d.treeAt root) ((d.detach n).treeAt root) := by
  have wf := hC.wellFormed
  rcases detach_cases wf root n with h | ⟨fr, up, l, a, as, r, rfl, ht, hd⟩
  · exact .same (by rw [h])
  · obtain rfl : a.label = label := by
      rw [Document.label?, wf.treeAt_of_spot ht] at hn
      exact Option.some.inj hn
    rw [hd, ht]
    refine .spot ?_ (by simp [toList])
    rw [landmarks_append, landmarks_cons, hC.landmarks_mute ht hmute, List.nil_append, landmarks_append]

/-- Taking out a mute node with a run that has nothing else in it. -/
theorem Charted.loses_detachFromRun (hC : Charted d root mute ls) (hplain : ∀ x ∈ ls, x.sign.isAnchor = false)
    (hn : d.label? n = some label) (hmute : label.isMute mute = true) :
    Loses label (d.treeAt root) ((d.detachFromRun n).treeAt root) := by
  have wf := hC.wellFormed
  obtain ⟨node, cs, hnode, hland⟩ := hC.exists_eq
  have hsound := hC.sound
  by_cases hmem : n ∈ Xml.ids (d.treeAt root)
  swap
  · have hsame := treeAt_detach_of_not_mem wf hmem
    refine .same ?_
    rcases detachFromRun_cases d n with h | ⟨run, hrun, h⟩ <;> rw [h]
    · rw [hsame]
    · rw [treeAt_detach_of_not_mem (wf.grows_detach n).wellFormed, hsame]
      rw [hsame]
      exact fun hr => hmem (wf.mem_of_parent?_mem hrun hr)
  by_cases hne : n = root
  · -- The whole scope is mute.
    subst hne
    have hq : Quiet (labels (d.treeAt n)) := by
      rw [hnode] at hsound ⊢
      rw [Document.label?, hnode] at hn
      exact hsound.quiet_of_isMute (Option.some.inj hn ▸ hmute)
    have hthins : Thins mute d (d.detachFromRun n) n := .detachFromRun wf n
    exact .same (by rw [landmarks_eq_nil_iff.mpr hq, landmarks_eq_nil_iff.mpr (hthins.thinner.quiet hq)])
  obtain ⟨fr, up, l, a, as, r, rfl, ht⟩ := exists_spot_below wf hmem hne
  obtain rfl : a.label = label := by
    rw [Document.label?, wf.treeAt_of_spot ht] at hn
    exact Option.some.inj hn
  have hquiet := hC.landmarks_mute ht hmute
  obtain ⟨-, htree | ⟨-, hrun, hcontent, htree⟩⟩ := detachFromRun_spec (.refl wf) wf hC.mem_ids
    ⟨node, cs, hnode⟩ ht
  · rw [htree, ht]
    refine .spot ?_ (by simp [toList])
    rw [landmarks_append, landmarks_cons, hquiet, List.nil_append, ← landmarks_append]
  · -- The run had nothing else in it, and it is no anchor, so no landmark goes with it.
    have hmem : fr.value ∈ (d.treeAt root).toList := by
      rw [ht, toList_wrap]
      exact List.mem_append_left _ (value_mem_opening (by simp))
    have hvalue : fr.value.label.isLandmark = false := by
      by_contra hl
      rw [Bool.not_eq_false] at hl
      obtain ⟨_, _, _, _, _, x, z, -, -, hsigns⟩ := hC.scoped.exists_spot_of_mem hmem hl
      have htext : fr.value.label.isNamed Word.text = false := by
        simp only [Label.isNamed, beq_iff_eq] at hrun ⊢
        rw [hrun]
        decide
      rw [Label.isLandmark, htext, Bool.or_false] at hl
      obtain ⟨y, hy, hsign⟩ := List.mem_map.mp
        (hsigns ▸ List.mem_append_right _ (List.mem_cons_self ..))
      have := hplain y hy
      rw [hsign, Sign.of, if_pos hl] at this
      exact absurd this (by simp [Sign.isAnchor])
    have hspot : Sound mute (labels (l ++ cons a as r)) := .of_wrap (ht ▸ hsound)
    rw [labels_append, labels_cons, sound_append, sound_cons] at hspot
    have hsides : Sound mute (labels (l ++ r)) := by
      rw [labels_append, sound_append]
      exact ⟨hspot.1, hspot.2.2⟩
    have hrest := hsides.quiet_of_not_content hcontent
    rw [labels_append, quiet_append, ← landmarks_eq_nil_iff, ← landmarks_eq_nil_iff] at hrest
    rw [htree, ht]
    refine .spot (f := fr.before ++ cons fr.value (l ++ cons a as r) fr.after) ?_ (by simp [toList])
    rw [landmarks_append, landmarks_cons, landmarks_tree _ hvalue, landmarks_append, landmarks_cons, hquiet,
      hrest.1, hrest.2, landmarks_append]
    rfl

/-- Taking out an element that is no landmark and holds none. -/
theorem detachFromRun_alike (hC : Charted d root mute ls) (hplain : ∀ x ∈ ls, x.sign.isAnchor = false)
    (hn : d.label? n = some label) (helement : label.isElement = true) (hmute : label.isMute mute = true) :
    ∃ ls', Charted (d.detachFromRun n) root mute ls' ∧ Alike ls ls' := by
  refine ⟨_, hC.of_thins (.detachFromRun hC.wellFormed n), ?_⟩
  rw [← hC.landmarks_eq]
  exact (hC.loses_detachFromRun hplain hn hmute).alike hC.sound helement

end Charted

end WordTemplate
