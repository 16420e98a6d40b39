import WordTemplate.Proofs.Xml.Division
import WordTemplate.Proofs.Xml.Position

/-!
# A division, level by level

A division goes up from its place: at every level, the trees on one side of the way go to the
counterpart of the node above, together with the counterpart from the level below. `after_around` and
`before_around` say what one level does, for the trees `fr.around f` around a forest `f` with the
place in it. What holds at the place and is kept by every level holds of the division
(`wrap_induction`).

`kept_after` and `kept_before` say in full what stays: behind the place nothing in the one case, in
front of it only nodes that carry formatting in the other.
-/

namespace WordTemplate

open Forest

/-- The trees at the level of a frame, with `f` below its node. -/
def Forest.Frame.around {α : Type u} (fr : Frame α) (f : Forest α) : Forest α :=
  fr.before ++ cons fr.value f fr.after

namespace Xml

/-- The trees that only carry formatting. -/
def properties (f : Forest Node) : Forest Node :=
  f.filterRoots (·.label.isProperty)

/-- The trees that do more than carry formatting. -/
def solids (f : Forest Node) : Forest Node :=
  f.filterRoots (!·.label.isProperty)

section Properties

variable {f g : Forest Node} {node : Node}

@[simp] theorem properties_nil : properties nil = nil := rfl

theorem properties_cons (node : Node) (cs rest : Forest Node) :
    properties (cons node cs rest) =
      if node.label.isProperty then cons node cs (properties rest) else properties rest := rfl

theorem solids_cons (node : Node) (cs rest : Forest Node) :
    solids (cons node cs rest) =
      if !node.label.isProperty then cons node cs (solids rest) else solids rest := rfl

@[simp] theorem properties_append (f g : Forest Node) :
    properties (f ++ g) = properties f ++ properties g := by
  induction f with
  | nil => rfl
  | cons node cs rest _ ih =>
    simp only [cons_append, properties_cons, ih]
    split <;> rfl

@[simp] theorem properties_properties (f : Forest Node) : properties (properties f) = properties f := by
  induction f with
  | nil => rfl
  | cons node cs rest _ ih =>
    rw [properties_cons]
    split
    · next h => rw [properties_cons, if_pos h, ih]
    · exact ih

@[simp] theorem properties_solids (f : Forest Node) : properties (solids f) = nil := by
  induction f with
  | nil => rfl
  | cons node cs rest _ ih =>
    rw [solids_cons]
    split
    · next h => rw [properties_cons, if_neg (by simpa using h), ih]
    · exact ih

theorem ids_filterRoots_sublist (keep : Node → Bool) (f : Forest Node) :
    (ids (f.filterRoots keep)).Sublist (ids f) := by
  induction f with
  | nil => exact List.Sublist.refl _
  | cons node cs rest _ ih =>
    rw [ids_cons, Forest.filterRoots.eq_def]
    dsimp only
    split
    · rw [ids_cons]
      exact (ih.append_left _).cons_cons _
    · exact (ih.trans (List.sublist_append_right _ _)).cons _

theorem mem_roots_properties {f : Forest Node} (h : node ∈ (properties f).roots) :
    node.label.isProperty = true := by
  rw [properties, roots_filterRoots] at h
  exact (List.mem_filter.mp h).2

end Properties

/-! ## One level -/

namespace Division

/-- The division of the trees around the node of `fr`, from that of the trees below it. -/
def levelAfter (δ : Division) (fr : Frame Node) : Division :=
  { δ.raise fr.value (δ.kept ++ δ.moved) (δ.lower ++ δ.moved) with
    kept := fr.before ++ tree fr.value δ.kept
    moved := fr.after }

/-- The same in the other direction. -/
def levelBefore (δ : Division) (fr : Frame Node) : Division :=
  { δ.raise fr.value δ.kept (δ.moved ++ δ.lower) with
    kept := properties fr.before ++ cons fr.value δ.kept fr.after
    moved := solids fr.before }

end Division

end Xml

open Xml

variable {f l r bs : Forest Node} {b : Node} {fr : Frame Node} {up : List (Frame Node)}
  {place : NodeId} {fresh : Nat}

theorem after_append (hl : place ∉ ids l) (f : Forest Node) :
    Division.after place fresh (l ++ f) =
      { Division.after place fresh f with kept := l ++ (Division.after place fresh f).kept } := by
  induction l with
  | nil => rfl
  | cons node cs rest _ ih =>
    simp only [ids_cons, List.mem_cons, List.mem_append, not_or] at hl
    rw [cons_append, after_of_not_mem (Ne.symm hl.1) hl.2.1, ih hl.2.2]
    rfl

theorem before_append (hl : place ∉ ids l) (f : Forest Node) :
    Division.before place fresh (l ++ f) =
      { Division.before place fresh f with
        kept := properties l ++ (Division.before place fresh f).kept
        moved := solids l ++ (Division.before place fresh f).moved } := by
  induction l with
  | nil => rfl
  | cons node cs rest _ ih =>
    simp only [ids_cons, List.mem_cons, List.mem_append, not_or] at hl
    rw [cons_append, before_of_not_mem (Ne.symm hl.1) hl.2.1, ih hl.2.2, properties_cons,
      solids_cons]
    by_cases hp : node.label.isProperty = true <;> simp [hp]

/-- At the place. -/
theorem after_here (hl : b.id ∉ ids l) :
    Division.after b.id fresh (l ++ cons b bs r) = ⟨l ++ tree b bs, nil, r, nil, fresh⟩ := by
  rw [after_append hl, after_of_eq rfl]

theorem before_here (hl : b.id ∉ ids l) :
    Division.before b.id fresh (l ++ cons b bs r) =
      ⟨properties l ++ cons b bs r, nil, solids l, nil, fresh⟩ := by
  rw [before_append hl, before_of_eq rfl, append_nil]

/-- Whether the place is found below the node of a frame, and not in the trees in front of it. -/
structure LeadsTo (fr : Frame Node) (place : NodeId) (f : Forest Node) : Prop where
  mem : place ∈ ids f
  not_mem_before : place ∉ ids fr.before
  value_ne : fr.value.id ≠ place

/-- One level up. -/
theorem after_around (h : LeadsTo fr place f) :
    Division.after place fresh (fr.around f) = (Division.after place fresh f).levelAfter fr := by
  rw [Frame.around, after_append h.not_mem_before, after_of_mem h.value_ne h.mem]
  rfl

theorem before_around (h : LeadsTo fr place f) :
    Division.before place fresh (fr.around f) = (Division.before place fresh f).levelBefore fr := by
  rw [Frame.around, before_append h.not_mem_before, before_of_mem h.value_ne h.mem]
  simp [Division.levelBefore, tree, Division.raise]

theorem leadsTo_of_opening (hf : place ∈ ids f) (h : place ∉ (opening (fr :: up)).map Node.id) :
    place ∉ (opening up).map Node.id ∧ LeadsTo fr place f := by
  simp only [opening, List.map_append, List.map_cons, List.map_nil, List.mem_append,
    List.mem_singleton, not_or] at h
  exact ⟨h.1, hf, h.2.1, fun he => h.2.2 he.symm⟩

theorem LeadsTo.mem_around (h : LeadsTo fr place f) : place ∈ ids (fr.around f) := by
  simp [Frame.around, h.mem]

/-- What holds at the place, and at every level if at the one below it, holds of the whole forest. -/
@[elab_as_elim]
theorem wrap_induction {P : Forest Node → Prop} (hf : place ∈ ids f)
    (hup : place ∉ (opening up).map Node.id)
    (level : ∀ fr ∈ up, ∀ g, LeadsTo fr place g → P g → P (fr.around g)) (h : P f) :
    P (wrap up f) := by
  induction up generalizing f with
  | nil => exact h
  | cons fr up ih =>
    obtain ⟨hup, hfr⟩ := leadsTo_of_opening hf hup
    refine ih hfr.mem_around hup (fun fr' hfr' => level fr' (List.mem_cons_of_mem _ hfr')) ?_
    exact level fr List.mem_cons_self f hfr h

/-- A node is not above its own spot, nor in the trees in front of it. -/
theorem not_mem_of_spot (hnd : (ids (wrap up (l ++ cons b bs r))).Nodup) :
    b.id ∉ (opening up).map Node.id ∧ b.id ∉ ids l := by
  obtain ⟨hup, hl, -, -⟩ := id_ne_of_spot hnd rfl
  refine ⟨fun h => ?_, any_id_eq_false_iff.mp hl⟩
  obtain ⟨x, hx, he⟩ := List.mem_map.mp h
  simpa [he] using hup x hx

/-! ## What stays -/

/-- Without the trees behind the way. -/
def Forest.Frame.endHere {α : Type u} (fr : Frame α) : Frame α :=
  { fr with after := nil }

/-- With nothing but formatting in front of the way. -/
def Forest.Frame.beginHere (fr : Frame Node) : Frame Node :=
  { fr with before := properties fr.before }

@[simp] theorem opening_map_endHere {α : Type u} (up : List (Frame α)) :
    opening (up.map Frame.endHere) = opening up := by
  induction up with
  | nil => rfl
  | cons fr up ih => simp [opening, Frame.endHere, ih]

@[simp] theorem closing_map_endHere {α : Type u} (up : List (Frame α)) :
    closing (up.map Frame.endHere) = [] := by
  induction up with
  | nil => rfl
  | cons fr up ih => simp [closing, Frame.endHere, ih, toList]

@[simp] theorem closing_map_beginHere (up : List (Frame Node)) :
    closing (up.map Frame.beginHere) = closing up := by
  induction up with
  | nil => rfl
  | cons fr up ih => simp [closing, Frame.beginHere, ih]

theorem opening_map_beginHere_sublist (up : List (Frame Node)) :
    ((opening (up.map Frame.beginHere)).map Node.id).Sublist ((opening up).map Node.id) := by
  induction up with
  | nil => exact List.Sublist.refl _
  | cons fr up ih =>
    simp only [List.map_cons, opening, List.map_append]
    exact ih.append ((ids_filterRoots_sublist _ fr.before).append_right _)

theorem kept_after_wrap (hf : place ∈ ids f) (hup : place ∉ (opening up).map Node.id) :
    (Division.after place fresh (wrap up f)).kept =
      wrap (up.map Frame.endHere) (Division.after place fresh f).kept := by
  induction up generalizing f with
  | nil => rfl
  | cons fr up ih =>
    obtain ⟨hup, hfr⟩ := leadsTo_of_opening hf hup
    change (Division.after place fresh (wrap up (fr.around f))).kept = _
    rw [ih hfr.mem_around hup, after_around hfr]
    rfl

theorem kept_before_wrap (hf : place ∈ ids f) (hup : place ∉ (opening up).map Node.id) :
    (Division.before place fresh (wrap up f)).kept =
      wrap (up.map Frame.beginHere) (Division.before place fresh f).kept := by
  induction up generalizing f with
  | nil => rfl
  | cons fr up ih =>
    obtain ⟨hup, hfr⟩ := leadsTo_of_opening hf hup
    change (Division.before place fresh (wrap up (fr.around f))).kept = _
    rw [ih hfr.mem_around hup, before_around hfr]
    rfl

theorem kept_after (fresh : Nat) (hnd : (ids (wrap up (l ++ cons b bs r))).Nodup) :
    (Division.after b.id fresh (wrap up (l ++ cons b bs r))).kept =
      wrap (up.map Frame.endHere) (l ++ tree b bs) := by
  obtain ⟨hup, hl⟩ := not_mem_of_spot hnd
  rw [kept_after_wrap (by simp) hup, after_here hl]

theorem kept_before (fresh : Nat) (hnd : (ids (wrap up (l ++ cons b bs r))).Nodup) :
    (Division.before b.id fresh (wrap up (l ++ cons b bs r))).kept =
      wrap (up.map Frame.beginHere) (properties l ++ cons b bs r) := by
  obtain ⟨hup, hl⟩ := not_mem_of_spot hnd
  rw [kept_before_wrap (by simp) hup, before_here hl]

end WordTemplate
