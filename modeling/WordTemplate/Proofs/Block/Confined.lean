import WordTemplate.Block.Placement
import WordTemplate.Block.Template
import WordTemplate.Proofs.Block.Boundary
import WordTemplate.Proofs.Block.Separation
import WordTemplate.Proofs.Xml.Fence
import WordTemplate.Proofs.Xml.Moves

/-!
# Taking contents out of a scope

Wherever the blocks of a scope start and stop, what is divided is in the scope, and so are the contents
that are taken out. None of them is above the scope, and nothing connects them to it in the end.

* `placeAll_confined`: placing blocks.
* `extractAll_confined`: taking their contents out.
-/

namespace WordTemplate

open Xml Forest Xml.Document

variable {d d' : Document} {n c place start stop first last above : NodeId} {F : Fence}

/-! ## Dividing -/

namespace Xml.Document.Fenced

variable (h : Fenced F d) (hc : Enclosed F d c) (hne : c ≠ F.root)
include h hc hne

theorem divideAfter (place : NodeId) :
    Confined F d (d.divideAfter c place).2 ∧
      ∀ n ∈ (d.divideAfter c place).1, Enclosed F (d.divideAfter c place).2 n := by
  have wf := h.wellFormed
  obtain ⟨a, as, rfl, ha⟩ := wf.exists_treeAt hc.mem_ids
  obtain ⟨-, heq⟩ | ⟨δ, -, rfl, -, hmoved, heq⟩ := wf.divideAfter_cases ha place
  · rw [heq]
    exact ⟨h.refl, fun n hn => by rwa [List.mem_singleton.mp hn]⟩
  · have hδ := conserves_after place d.fresh (tree a as)
    have hlabels := labelled_after place d.fresh
      (labelled_iff.mpr fun _ hl => hl : Labelled (· ∈ (d.labelsAt a.id).toList) (d.treeAt a.id))
    rw [ha] at hlabels
    generalize Division.after place d.fresh (tree a as) = δ at hδ hmoved hlabels heq
    rw [hmoved, append_nil] at hδ
    obtain ⟨hsettle, hparts⟩ := h.settle (f := δ.kept ++ δ.lower) hc hne hδ.fresh_le
      (by rw [append_assoc, ha]; exact hδ.perm) (by rwa [hmoved, nil_append, ← append_assoc] at hlabels)
    rw [heq]
    refine ⟨hsettle, fun n hn => ?_⟩
    rcases List.mem_cons.mp hn with rfl | hn
    · exact hsettle.enclosed hc
    · refine hparts n ?_
      simp only [ids_append, List.mem_append]
      exact .inl (.inr ((roots_ids_sublist δ.lower).subset hn))

theorem divideBefore (place : NodeId) : Confined F d (d.divideBefore c place).2 := by
  have wf := h.wellFormed
  obtain ⟨a, as, rfl, ha⟩ := wf.exists_treeAt hc.mem_ids
  obtain ⟨-, heq⟩ | ⟨δ, -, rfl, -, hmoved, heq⟩ := wf.divideBefore_cases ha place
  · rw [heq]
    exact h.refl
  · have hδ := conserves_before place d.fresh (tree a as)
    have hlabels := labelled_before place d.fresh
      (labelled_iff.mpr fun _ hl => hl : Labelled (· ∈ (d.labelsAt a.id).toList) (d.treeAt a.id))
    rw [ha] at hlabels
    generalize Division.before place d.fresh (tree a as) = δ at hδ hmoved hlabels heq
    rw [hmoved, nil_append, ← ha] at hδ
    rw [heq]
    refine (h.settle (f := δ.lower ++ δ.kept) hc hne hδ.fresh_le (List.Perm.trans ?_ hδ.perm) ?_).1
    · simp only [ids_append, ← List.append_assoc]
      exact List.perm_append_comm.append_right _
    · simp only [each_append] at hlabels ⊢
      exact ⟨⟨hlabels.2.1, hlabels.1⟩, hlabels.2.2.2⟩

end Xml.Document.Fenced

namespace Block

/-! ## Placing -/

theorem surroundRows_confined (h : Fenced F d) (hfirst : Enclosed F d first)
    (hlast : Enclosed F d last) {c k : NodeId} (hrun : surroundRows d first last = ((c, k), d')) :
    Confined F d d' ∧ Enclosed F d' c ∧ Enclosed F d' k := by
  obtain ⟨hbefore, hc⟩ := h.insertNew (h.createElement Word.row (by simp [Word.madeNames]))
    (makes_addCopies h.wellFormed (.element ⟨Word.row, []⟩) .nil) hfirst
    (j := fun moved sibling => moved ++ sibling) fun _ _ => .inl rfl
  obtain ⟨hafter, hk⟩ := hbefore.fenced.insertNew
    (hbefore.fenced.createElement Word.row (by simp [Word.madeNames]))
    (makes_addCopies hbefore.fenced.wellFormed (.element ⟨Word.row, []⟩) .nil) (hbefore.enclosed hlast)
    (j := fun moved sibling => sibling ++ moved) fun _ _ => .inr rfl
  cases hrun
  exact ⟨hbefore.trans hafter, hafter.enclosed hc, hk⟩

theorem insertAnchor_confined (h : Fenced F d) (habove : above ∈ d.ids)
    (hside : above = F.root ∨ ¬ F.outside above) {parts : List NodeId} (hparts : ∀ n ∈ parts, Enclosed F d n)
    (endsElsewhere : Bool) :
    Confined F d (insertAnchor d above parts endsElsewhere).2 ∧
      Enclosed F (insertAnchor d above parts endsElsewhere).2
        (insertAnchor d above parts endsElsewhere).1 := by
  have hmade := h.createElement Word.paragraph (by simp [Word.madeNames])
  have hmakes := makes_addCopies h.wellFormed (.element ⟨Word.paragraph, []⟩) .nil
  unfold insertAnchor
  dsimp only
  split
  · next single =>
    have hsibling : ∀ next ∈ followingSiblings (d.createElement Word.paragraph).2 single,
        Enclosed F d next := by
      intro next hnext
      rw [followingSiblings] at hnext
      split at hnext
      · replace hnext := List.mem_of_mem_drop hnext
        have hsingle := hparts single (List.mem_singleton_self _)
        rw [show (d.createElement Word.paragraph).2 = d.addCopies _ from rfl,
          h.wellFormed.siblings_addCopies _ hsingle.mem_ids] at hnext
        exact (h.of_mem_siblings hnext hsingle.not_outside).1
      · cases hnext
    split
    · next next hnext =>
      exact h.insertNew hmade hmakes (hsibling next (List.mem_of_find?_eq_some hnext)) fun _ _ => .inl rfl
    · exact h.appendNew hmade hmakes habove hside
  · split
    · next tail htail =>
      exact h.insertNew hmade hmakes (hparts tail (List.mem_of_getLast? htail)) fun _ _ => .inl rfl
    · exact ⟨hmade, hmakes.mem_ids, (h.of_makes hmakes).1⟩

/-- Placing a block respects the fence, and its bounds are inside. -/
theorem place?_confined (h : Fenced F d) (hstart : Enclosed F d start) (hstop : Enclosed F d stop)
    (hplace : place? d start stop = some ((first, last), d')) :
    Confined F d d' ∧ Enclosed F d' first ∧ Enclosed F d' last := by
  have wf := h.wellFormed
  rw [place?] at hplace
  simp only [Option.bind_eq_bind, Option.bind_eq_some_iff] at hplace
  obtain ⟨above, habove, hplace⟩ := hplace
  have hside := h.of_commonAncestor? hstart.not_outside hstop.not_outside habove
  split at hplace
  · next hrow =>
    obtain ⟨q, hq, hplace⟩ := Option.bind_eq_some_iff.mp hplace
    have hin : Enclosed F d above := by
      refine ⟨wf.mem_ids_of_parent? (by rw [hq]; rfl), fun ho => ?_⟩
      obtain rfl := hside.resolve_right (not_not.mpr ho)
      rw [h.not_named ho Word.row (by simp)] at hrow
      cases hrow
    exact surroundRows_confined h hin hin (by simpa using hplace)
  -- The children that the ends are in are on this side of the fence, and not the scope.
  have hchild : ∀ {n c}, d.childToward? above n = some c → Enclosed F d c ∧ c ≠ F.root := by
    intro n c hc
    have hc : d.parent? c = some above := by simpa using List.find?_some hc
    have hmem := wf.parent?_eq_some_iff.mp hc
    have hnot := h.not_of_child hmem hside
    exact ⟨⟨wf.mem_ids_of_mem_children hmem, hnot⟩, h.ne_root hmem hnot⟩
  obtain ⟨startChild, hstartChild, hplace⟩ := Option.bind_eq_some_iff.mp hplace
  obtain ⟨stopChild, hstopChild, hplace⟩ := Option.bind_eq_some_iff.mp hplace
  have habove : above ∈ d.ids := by
    have hc : d.parent? startChild = some above := by simpa using List.find?_some hstartChild
    exact wf.mem_ids_of_children (wf.parent?_eq_some_iff.mp hc)
  obtain ⟨hstartIn, hstartNe⟩ := hchild hstartChild
  obtain ⟨hstopIn, hstopNe⟩ := hchild hstopChild
  split at hplace
  · exact surroundRows_confined h hstartIn hstopIn (by simpa using hplace)
  obtain ⟨hdivide, hparts⟩ := h.divideAfter hstartIn hstartNe start
  generalize d.divideAfter startChild start = divided at hdivide hparts hplace
  obtain ⟨parts, divided⟩ := divided
  dsimp only at hdivide hparts hplace
  obtain ⟨hanchor, hanchorIn⟩ := insertAnchor_confined hdivide.fenced (hdivide.grows.mem_ids _ habove)
    hside hparts (startChild != stopChild)
  replace hanchor := hdivide.trans hanchor
  generalize insertAnchor divided above parts (startChild != stopChild) = anchored
    at hanchor hanchorIn hplace
  obtain ⟨anchor, anchored⟩ := anchored
  dsimp only at hanchor hanchorIn hplace
  split at hplace
  · cases hplace
    exact ⟨hanchor, hanchorIn, hanchor.enclosed hstopIn⟩
  · cases hplace
    have hlast := hanchor.fenced.divideBefore (hanchor.enclosed hstopIn) hstopNe stop
    exact ⟨hanchor.trans hlast, hlast.enclosed hanchorIn, (hanchor.trans hlast).enclosed hstopIn⟩

theorem placeOne_confined {number : Nat} {b : Block} {p : Placed} (h : Fenced F d)
    (hstart : Enclosed F d b.start.node) (hstop : Enclosed F d b.stop.node) (hrun : placeOne number b d = .ok p d') :
    Confined F d d' ∧ Enclosed F d' p.first := by
  rw [placeOne_eq_match] at hrun
  split at hrun
  · cases hrun
  · next first last d₁ hplace =>
    cases hrun
    obtain ⟨hplaced, hfirst, hlast⟩ := place?_confined h hstart hstop hplace
    have hstart := hplaced.fenced.setAttribute hfirst.not_outside Word.insertionAttribute
      (startPoint b.kind number).id
    have hend := hstart.fenced.setAttribute hlast.not_outside Word.insertionAttribute
      (endPoint b.kind number).id
    exact ⟨hplaced.trans (hstart.trans hend), hend.enclosed (hstart.enclosed hfirst)⟩

/-- Whether blocks start and stop on this side of the fence. -/
def Inward (F : Fence) (d : Document) (B : Forest (Nat × Block)) : Prop :=
  ∀ b ∈ B.toList, Enclosed F d b.2.start.node ∧ Enclosed F d b.2.stop.node

theorem Inward.mono {B : Forest (Nat × Block)} (hB : Inward F d B) (h : Confined F d d') : Inward F d' B :=
  fun b hb => (hB b hb).imp h.enclosed h.enclosed

theorem inward_cons {b : Nat × Block} {inner rest : Forest (Nat × Block)} :
    Inward F d (cons b inner rest) ↔ (Enclosed F d b.2.start.node ∧ Enclosed F d b.2.stop.node) ∧
      Inward F d inner ∧ Inward F d rest := by
  simp only [Inward, toList, List.forall_mem_cons, List.forall_mem_append]

/-- Placing blocks that start and stop inside respects the fence, and their anchors are inside. -/
theorem placeAll_confined {B : Forest (Nat × Block)} {P : Forest Placed} (h : Fenced F d)
    (hB : Inward F d B) (hrun : placeAll B d = .ok P d') :
    Confined F d d' ∧ ∀ p ∈ P.toList, Enclosed F d' p.first := by
  induction B generalizing d P d' with
  | nil =>
    cases hrun
    exact ⟨h.refl, fun p hp => by cases hp⟩
  | cons b inner rest ihi ihr =>
    obtain ⟨⟨hstart, hstop⟩, hinner, hrest⟩ := inward_cons.mp hB
    obtain ⟨p, d₁, I, d₂, R, h₁, h₂, h₃, rfl⟩ := exists_of_placeAll_cons hrun
    obtain ⟨hone, hfirst⟩ := placeOne_confined h hstart hstop h₁
    obtain ⟨htwo, hI⟩ := ihi hone.fenced (hinner.mono hone) h₂
    obtain ⟨hthree, hR⟩ := ihr htwo.fenced (hrest.mono (hone.trans htwo)) h₃
    refine ⟨hone.trans (htwo.trans hthree), fun q hq => ?_⟩
    have hq : q ∈ p :: (I.toList ++ R.toList) := hq
    rw [List.mem_cons, List.mem_append] at hq
    rcases hq with rfl | hq | hq
    · exact hthree.enclosed (htwo.enclosed hfirst)
    · exact hthree.enclosed (hI q hq)
    · exact hR q hq

/-- So does what was done until one could not be placed. -/
theorem placeAll_error_confined {B : Forest (Nat × Block)} {e : Error} (h : Fenced F d)
    (hB : Inward F d B) (hrun : placeAll B d = .error e d') : Confined F d d' := by
  induction B generalizing d d' with
  | nil => cases hrun
  | cons b inner rest ihi ihr =>
    obtain ⟨⟨hstart, hstop⟩, hinner, hrest⟩ := inward_cons.mp hB
    change EStateM.bind (placeOne b.1 b.2) _ d = _ at hrun
    rw [EStateM.bind] at hrun
    split at hrun
    · next p d₁ h₁ =>
      have hone := (placeOne_confined h hstart hstop h₁).1
      refine hone.trans ?_
      change EStateM.bind (placeAll inner) _ d₁ = _ at hrun
      rw [EStateM.bind] at hrun
      split at hrun
      · next I d₂ h₂ =>
        have htwo := (placeAll_confined hone.fenced (hinner.mono hone) h₂).1
        refine htwo.trans (ihr htwo.fenced (hrest.mono (hone.trans htwo)) ?_)
        change EStateM.bind (placeAll rest) _ d₂ = _ at hrun
        rw [EStateM.bind] at hrun
        split at hrun
        · cases hrun
        · next he =>
          cases hrun
          exact he
      · next he =>
        cases hrun
        exact ihi hone.fenced (hinner.mono hone) he
    · next he =>
      cases hrun
      -- Nothing is changed for a block that cannot be placed.
      rw [placeOne_eq_match] at he
      split at he
      · cases he
        exact h.refl
      · cases he

/-! ## Extracting -/

/-- A node that is taken out has no parent, whatever is taken out after it. -/
theorem parent?_detachAll (h : d.WellFormed) {ns : List NodeId}
    (hn : n ∈ ns ∨ d.parent? n = none) : (d.detachAll ns).parent? n = none := by
  induction ns generalizing d with
  | nil => exact hn.resolve_left List.not_mem_nil
  | cons m ns ih =>
    rw [List.mem_cons, or_assoc] at hn
    refine ih (h.grows_detach m).wellFormed ?_
    rcases hn with hm | hn | hn
    · exact .inr (h.parent?_detach (.inl hm))
    · exact .inl hn
    · exact .inr (h.parent?_detach (.inr hn))

theorem detachAll_confined (h : Fenced F d) {ns : List NodeId} (hns : ∀ n ∈ ns, ¬ F.outside n) :
    Confined F d (d.detachAll ns) :=
  h.foldl fun _ hd' m hm => hd'.fenced.detach fun _ => hns m hm

/-- Whether `n` was taken out: it is on this side of the fence, other than the scope, and has no
parent. -/
structure Removed (F : Fence) (d : Document) (n : NodeId) : Prop where
  enclosed : Enclosed F d n
  ne_root : n ≠ F.root
  parent?_eq : d.parent? n = none

theorem Removed.detachAll (hn : Removed F d n) (wf : d.WellFormed) (ns : List NodeId) :
    Removed F (d.detachAll ns) n :=
  ⟨⟨(wf.moves_detachAll ns).grows.mem_ids _ hn.enclosed.mem_ids, hn.enclosed.not_outside⟩, hn.ne_root,
    parent?_detachAll wf (.inr hn.parent?_eq)⟩

/-- Taking the contents of blocks out respects the fence. -/
theorem extractAll_confined {P : Forest Placed} (h : Fenced F d)
    (hP : ∀ p ∈ P.toList, Enclosed F d p.first) :
    Confined F d (extractAll P d).2 ∧
      (∀ n, Removed F d n → Removed F (extractAll P d).2 n) ∧
      ∀ t ∈ (extractAll P d).1.toList, ∀ c ∈ t.content, Removed F (extractAll P d).2 c := by
  induction P generalizing d with
  | nil => exact ⟨h.refl, fun n hn => hn, fun t ht => by cases ht⟩
  | cons p inner rest ihi ihr =>
    simp only [toList, List.forall_mem_cons, List.mem_append, or_imp, forall_and] at hP
    obtain ⟨hp, hi, hr⟩ := hP
    obtain ⟨h₁, hkeep₁, hinner⟩ := ihi h hi
    have wf₁ := h₁.fenced.wellFormed
    -- The content is among the siblings of the anchor.
    have hcontent : ∀ c ∈ (extractAll inner d).2.between p.first p.last,
        Enclosed F (extractAll inner d).2 c ∧ c ≠ F.root := fun c hc =>
      h₁.fenced.of_mem_siblings (mem_siblings_of_mem_between hc) (h₁.enclosed hp).not_outside
    have h₂ := detachAll_confined h₁.fenced fun c hc => (hcontent c hc).1.not_outside
    obtain ⟨h₃, hkeep₃, hrest⟩ := ihr h₂.fenced fun q hq => h₂.enclosed (h₁.enclosed (hr q hq))
    refine ⟨h₁.trans (h₂.trans h₃), fun n hn => hkeep₃ n ((hkeep₁ n hn).detachAll wf₁ _),
      fun t ht c hc => ?_⟩
    have ht : t ∈ _ :: (_ ++ _) := ht
    rw [List.mem_cons, List.mem_append] at ht
    rcases ht with rfl | ht | ht
    · obtain ⟨hin, hne⟩ := hcontent c hc
      exact hkeep₃ c ⟨h₂.enclosed hin, hne, parent?_detachAll wf₁ (.inl hc)⟩
    · exact hkeep₃ c ((hinner t ht c hc).detachAll wf₁ _)
    · exact hrest t ht c hc

end Block

end WordTemplate
