import WordTemplate.Proofs.Word.Landmark

/-!
# Sound templates

A forest is quiet if it has no landmark. `Sound` says where a forest is quiet: inside a landmark, at
and inside a text, an element that only carries formatting, and an element of a muted name.

* `landmarks_eq_nil_iff`: a forest is quiet if and only if its list of landmarks is empty.
* `Sound.wrap`: what is in a spot can be changed if there was a landmark in it.
-/

namespace WordTemplate

open Xml Forest

/-! ## Quiet forests -/

/-- Whether a forest has no landmark. -/
def Quiet (f : Forest Label) : Prop :=
  ∀ l ∈ f.toList, l.isLandmark = false

@[simp] theorem quiet_nil : Quiet nil := by
  simp [Quiet, toList]

@[simp] theorem quiet_cons {l : Label} {cs rest : Forest Label} :
    Quiet (cons l cs rest) ↔ l.isLandmark = false ∧ Quiet cs ∧ Quiet rest := by
  simp [Quiet, toList, or_imp, forall_and]

@[simp] theorem quiet_append {f g : Forest Label} : Quiet (f ++ g) ↔ Quiet f ∧ Quiet g := by
  simp [Quiet, or_imp, forall_and]

@[simp] theorem quiet_tree {l : Label} {cs : Forest Label} :
    Quiet (tree l cs) ↔ l.isLandmark = false ∧ Quiet cs := by
  simp [tree]

theorem landmarks_eq_nil_iff {f : Forest Node} : landmarks f = [] ↔ Quiet (labels f) := by
  induction f with
  | nil => simp
  | cons node cs rest ihc ihr =>
    rw [landmarks_cons, List.append_eq_nil_iff, ihr, labels_cons, quiet_cons]
    by_cases hl : node.label.isLandmark = true
    · simp [landmarks_tree_of_isLandmark cs hl, hl]
    · rw [Bool.not_eq_true] at hl
      simp [landmarks_tree cs hl, hl, ihc]

/-! ## Sound forests -/

namespace Xml.Label

/-- Whether nothing at and inside a node with this label is looked at. -/
def isMute (mute : List String) (l : Label) : Bool :=
  !l.isElement || l.isProperty || mute.any (l.isNamed ·)

theorem isMute_of_isProperty {mute : List String} {l : Label} (h : l.isProperty = true) :
    l.isMute mute = true := by
  simp [isMute, h]

theorem isMute_text (mute : List String) (content : String) :
    (text content).isMute mute = true := rfl

end Xml.Label

/-- Whether there are no elements in a forest. -/
def OnlyText (f : Forest Label) : Prop :=
  ∀ l ∈ f.toList, l.isElement = false

/-- Whether no landmark is inside another one, and none at or inside a mute node, whether no anchor
is a text element, and whether a marked landmark holds nothing but text. -/
def Sound (mute : List String) : Forest Label → Prop
  | .nil => True
  | .cons l cs rest =>
    (l.isLandmark = true → Quiet cs ∧ (l.isAnchor && l.isNamed Word.text) = false ∧
      (l.marks ≠ [] → OnlyText cs)) ∧
      (l.isMute mute = true → l.isLandmark = false ∧ Quiet cs) ∧ Sound mute cs ∧ Sound mute rest

section Sound

variable {mute : List String}

@[simp] theorem sound_nil : Sound mute nil := trivial

theorem sound_cons {l : Label} {cs rest : Forest Label} :
    Sound mute (cons l cs rest) ↔ Sound mute (tree l cs) ∧ Sound mute rest := by
  simp [Sound, tree, and_assoc]

@[simp] theorem sound_append {f g : Forest Label} :
    Sound mute (f ++ g) ↔ Sound mute f ∧ Sound mute g := by
  induction f with
  | nil => simp
  | cons l cs rest _ ih => rw [cons_append, sound_cons, sound_cons, ih, and_assoc]

theorem Sound.of_quiet {f : Forest Label} (h : Quiet f) : Sound mute f := by
  induction f with
  | nil => trivial
  | cons l cs rest ihc ihr =>
    obtain ⟨hl, hcs, hrest⟩ := quiet_cons.mp h
    refine ⟨fun h => ?_, fun _ => ⟨hl, hcs⟩, ihc hcs, ihr hrest⟩
    rw [hl] at h
    cases h

theorem Sound.children {l : Label} {cs : Forest Label} (h : Sound mute (tree l cs)) :
    Sound mute cs :=
  h.2.2.1

/-- The node above a landmark is neither a landmark nor mute. -/
theorem Sound.open {l : Label} {cs : Forest Label} (h : Sound mute (tree l cs))
    (hcs : ¬ Quiet cs) : l.isLandmark = false ∧ l.isMute mute = false := by
  constructor
  · exact Bool.eq_false_iff.mpr fun hl => hcs (h.1 hl).1
  · exact Bool.eq_false_iff.mpr fun hl => hcs (h.2.1 hl).2

theorem sound_tree_of_open {l : Label} {cs : Forest Label} (hl : l.isLandmark = false)
    (hm : l.isMute mute = false) : Sound mute (tree l cs) ↔ Sound mute cs := by
  simp [Sound, tree, hl, hm]

theorem Sound.quiet_of_isMute {l : Label} {cs : Forest Label} (h : Sound mute (tree l cs))
    (hm : l.isMute mute = true) : Quiet (tree l cs) := by
  obtain ⟨hl, hcs⟩ := h.2.1 hm
  simp [hl, hcs]

/-! ### Spots of sound forests -/

theorem Sound.of_wrap {up : List (Frame Node)} {f : Forest Node}
    (h : Sound mute (labels (wrap up f))) : Sound mute (labels f) := by
  induction up generalizing f with
  | nil => exact h
  | cons fr up ih =>
    have := ih h
    simp only [labels_append, labels_cons, sound_append] at this
    exact this.2.2.2.1

/-- Where there was a landmark, other sound trees can be put. -/
theorem Sound.wrap {up : List (Frame Node)} {f g : Forest Node}
    (h : Sound mute (labels (Forest.wrap up f))) (hf : ¬ Quiet (labels f))
    (hg : Sound mute (labels g)) : Sound mute (labels (Forest.wrap up g)) := by
  induction up generalizing f g with
  | nil => exact hg
  | cons fr up ih =>
    have hin : Sound mute (labels (fr.before ++ cons fr.value f fr.after)) := of_wrap h
    rw [labels_append, labels_cons, sound_append, sound_cons] at hin
    obtain ⟨hbefore, hvalue, hafter⟩ := hin
    obtain ⟨hl, hm⟩ := hvalue.open hf
    refine ih h ?_ ?_
    · simp only [labels_append, labels_cons, quiet_append, quiet_cons]
      exact fun hq => hf hq.2.2.1
    · rw [labels_append, labels_cons, sound_append, sound_cons, sound_tree_of_open hl hm]
      exact ⟨hbefore, hg, hafter⟩

/-- The nodes above a landmark are neither landmarks nor mute. -/
theorem Sound.open_of_wrap {up : List (Frame Node)} {f : Forest Node}
    (h : Sound mute (labels (Forest.wrap up f))) (hf : ¬ Quiet (labels f)) :
    ∀ fr ∈ up, fr.value.label.isLandmark = false ∧ fr.value.label.isMute mute = false := by
  induction up generalizing f with
  | nil => simp
  | cons fr up ih =>
    intro fr' hfr
    rcases List.mem_cons.mp hfr with rfl | hfr
    · have hin : Sound mute (labels (fr'.before ++ cons fr'.value f fr'.after)) := of_wrap h
      rw [labels_append, labels_cons, sound_append, sound_cons] at hin
      exact hin.2.1.open hf
    · refine ih h ?_ fr' hfr
      simp only [labels_append, labels_cons, quiet_append, quiet_cons]
      exact fun hq => hf hq.2.2.1

/-- The trees at a part of the roots. -/
theorem Sound.filterRoots {f : Forest Node} (keep : Node → Bool) (h : Sound mute (labels f)) :
    Sound mute (labels (f.filterRoots keep)) := by
  induction f with
  | nil => trivial
  | cons node cs rest _ ih =>
    rw [labels_cons, sound_cons] at h
    unfold Forest.filterRoots
    split
    · rw [labels_cons, sound_cons]
      exact ⟨h.1, ih h.2⟩
    · exact ih h.2

/-- Formatting is quiet. -/
theorem Sound.quiet_properties {f : Forest Node} (h : Sound mute (labels f)) :
    Quiet (labels (f.filterRoots (·.label.isProperty))) := by
  induction f with
  | nil => simp [Forest.filterRoots]
  | cons node cs rest _ ih =>
    rw [labels_cons, sound_cons] at h
    unfold Forest.filterRoots
    split
    · next hp =>
      have := h.1.quiet_of_isMute (Label.isMute_of_isProperty hp)
      rw [labels_cons, quiet_cons]
      rw [quiet_tree] at this
      exact ⟨this.1, this.2, ih h.2⟩
    · exact ih h.2

end Sound

end WordTemplate
