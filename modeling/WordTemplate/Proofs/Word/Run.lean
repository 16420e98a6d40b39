import WordTemplate.Proofs.Word.Chart

/-!
# Taking out of runs

What is taken out of a run takes the run with it if that has no content any more. Neither the run
nor what is then left of it has a landmark.

* `detachFromRun_spec`: the tree of the scope afterwards.
* `detachFromRun_chart`: a text is gone from the chart.
-/

namespace WordTemplate

open Xml Forest

/-- What does not count as content is quiet. -/
theorem Sound.quiet_of_not_content {mute : List String} {f : Forest Node}
    (h : Sound mute (labels f)) (hf : ∀ n ∈ f.roots, n.label.isContent = false) : Quiet (labels f) := by
  induction f with
  | nil => exact quiet_nil
  | cons node cs rest _ ih =>
    rw [labels_cons, sound_cons] at h
    have hmute : node.label.isMute mute = true := by
      have := hf node (by simp [roots])
      cases hl : node.label with
      | text content => rfl
      | element tag =>
        refine Label.isMute_of_isProperty ?_
        simpa [hl, Label.isContent, Label.isProperty] using this
    have hq := h.1.quiet_of_isMute hmute
    rw [quiet_tree] at hq
    rw [labels_cons, quiet_cons]
    exact ⟨hq.1, hq.2, ih h.2 fun n hn => hf n (by simp [roots, hn])⟩

section Detach

variable {d₀ d : Document} {root : NodeId} {mute : List String} {u v : List Landmark} {x : Landmark}
  {fr : Frame Node} {up : List (Frame Node)} {l as r : Forest Node} {a : Node}

/-- Taking a node out of the scope, and the run it was in if nothing else is in that. -/
theorem detachFromRun_spec (h : d₀.Within d root) (wf₀ : d₀.WellFormed) (hs : root ∈ d₀.ids)
    (hroot : ∃ node cs, d.treeAt root = tree node cs)
    (ht : d.treeAt root = wrap (fr :: up) (l ++ cons a as r)) :
    d₀.Within (d.detachFromRun a.id) root ∧
      ((d.detachFromRun a.id).treeAt root = wrap (fr :: up) (l ++ r) ∨
        up ≠ [] ∧ fr.value.label.isNamed Word.run = true ∧
          (∀ n ∈ (l ++ r).roots, n.label.isContent = false) ∧
          (d.detachFromRun a.id).treeAt root = wrap up (fr.before ++ fr.after)) := by
  have wf := h.grows.wellFormed
  have hw := h.detach wf₀ (Document.mem_of_spot ht)
  have htree := Document.treeAt_detach_spot wf ht
  have wf' := hw.grows.wellFormed
  obtain ⟨fr', up', htrees, hvalue, -⟩ := wf.exists_spot_of_treeAt ht
  have hparent : d.parent? a.id = some fr.value.id := by
    rw [Document.parent?_eq wf htrees, List.head?_cons, Option.map_some, hvalue]
  have hrun : (d.detach a.id).treeAt root = wrap up (fr.before ++ cons fr.value (l ++ r) fr.after) :=
    htree
  have hrunTree : (d.detach a.id).treeAt fr.value.id = tree fr.value (l ++ r) :=
    wf'.treeAt_of_spot hrun
  have hnamed : (d.detach a.id).isNamed fr.value.id Word.run = fr.value.label.isNamed Word.run := by
    rw [Document.isNamed, Document.name?, Document.label?, hrunTree]
    rfl
  have hcontent : (d.detach a.id).hasContent fr.value.id =
      (l ++ r).roots.any (·.label.isContent) := by
    rw [Document.hasContent, hrunTree]
    rfl
  simp only [Document.detachFromRun, hparent, hnamed, hcontent]
  by_cases hcond : (fr.value.label.isNamed Word.run && !(l ++ r).roots.any (·.label.isContent)) = true
  swap
  · rw [if_neg hcond]
    exact ⟨hw, .inl htree⟩
  rw [if_pos hcond]
  rw [Bool.and_eq_true, Bool.not_eq_true', List.any_eq_false] at hcond
  cases up with
  | nil =>
    -- The run is the scope itself.
    obtain ⟨node, cs, hnode⟩ := hroot
    obtain ⟨up₀, hup⟩ := exists_outermost (ht.symm.trans hnode)
    have hfr : fr = ⟨nil, node, nil⟩ := by
      cases up₀ with
      | nil => simpa using hup
      | cons f up₀ => simp at hup
    have hid : fr.value.id = root := by
      rw [hfr]
      exact (wf.mem_ids_of_treeAt hnode).2
    obtain ⟨hw', ht'⟩ := hw.detach_above (p := fr.value.id) wf₀ hs (by
      rw [hid]
      exact wf'.mem_treeAt_self (hw.grows.mem_ids _ hs))
    exact ⟨hw', .inl (ht'.trans htree)⟩
  | cons fr₂ up =>
    refine ⟨hw.detach wf₀ (Document.mem_of_spot hrun), .inr ⟨by simp, hcond.1, ?_,
      Document.treeAt_detach_spot wf' hrun⟩⟩
    intro n hn
    simpa using hcond.2 n hn

/-- Taking a landmark out. -/
theorem detachFromRun_chart (h : d₀.Within d root) (wf₀ : d₀.WellFormed) (hs : root ∈ d₀.ids)
    (hC : Charted d root mute (u ++ x :: v)) :
    d₀.Within (d.detachFromRun x.node) root ∧ Charted (d.detachFromRun x.node) root mute (u ++ v) := by
  obtain ⟨fr, up, l, a, as, r, hat⟩ := hC.exists_stands
  obtain ⟨node, cs, hnode, hland⟩ := hC.exists_eq
  obtain ⟨hw, ht⟩ := detachFromRun_spec h wf₀ hs ⟨node, cs, hnode⟩ hat.treeAt_eq
  have hin := hat.sound hC.sound
  have hsound : Sound mute (labels (l ++ r)) := by
    rw [labels_append, sound_append]
    exact ⟨hin.1, hin.2.2⟩
  rw [hat.eq]
  refine ⟨hw, ?_⟩
  rcases ht with ht | ⟨hup, -, hcontent, ht⟩
  · have := hC.replace hat hw.grows.wellFormed (g := nil) ht sound_nil
    simpa using this
  · have hquiet := hsound.quiet_of_not_content hcontent
    rw [labels_append, quiet_append, ← landmarks_eq_nil_iff, ← landmarks_eq_nil_iff] at hquiet
    have hopen := fun fr' hfr => hat.isOpen fr' (List.mem_cons_of_mem fr hfr)
    refine ⟨hw.grows.wellFormed, ?_, ?_, ?_⟩
    · obtain ⟨fr₂, up₂, rfl⟩ := List.exists_cons_of_ne_nil hup
      have hspot : d.treeAt root = wrap (fr₂ :: up₂) (fr.before ++ cons fr.value (l ++ cons a as r) fr.after) :=
        hat.treeAt_eq
      obtain ⟨cs', hcs'⟩ := exists_tree_wrap (hspot.symm.trans hnode) (fr.before ++ fr.after)
      exact ⟨node, cs', ht.trans hcs', hland⟩
    · rw [ht]
      have hs' := hC.sound
      rw [hat.treeAt_eq] at hs'
      have hrun : Sound mute (labels (fr.before ++ cons fr.value (l ++ cons a as r) fr.after)) :=
        by exact Sound.of_wrap hs'
      rw [labels_append, labels_cons, sound_append, sound_cons] at hrun
      refine Sound.wrap_of_open (f := fr.before ++ cons fr.value (l ++ cons a as r) fr.after) hs' hopen
        ?_
      rw [labels_append, sound_append]
      exact ⟨hrun.1, hrun.2.2⟩
    · rw [ht, landmarks_wrap fun fr' hfr => (hopen fr' hfr).1, hat.before_eq, hat.after_eq]
      simp [hquiet.1, hquiet.2, landmarksBefore, landmarksAfter]

end Detach

end WordTemplate
