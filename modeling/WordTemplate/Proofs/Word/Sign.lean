import WordTemplate.Proofs.Word.Mark

/-!
# Signs

What the landmarks of a tree show does not depend on identifiers: `signs` reads it off the labels.
In a sound tree every anchor is a landmark, so an insertion point can be looked up among the signs.

* `signs_labels`: the signs of a forest are those of its landmarks.
* `filter_isOn`: the one node that carries the insertion point of a block.
-/

namespace WordTemplate

open Xml Forest

/-- What a landmark with this label and these children shows. -/
def Sign.of (label : Label) (children : Forest Label) : Sign :=
  if label.isAnchor then .anchor ((label.attribute? Word.insertionAttribute).getD "")
  else .text label.marks (innerText children)

/-- What the landmarks of a forest show. -/
def signs : Forest Label → List Sign
  | .nil => []
  | .cons label cs rest =>
    (if label.isLandmark then [Sign.of label cs] else signs cs) ++ signs rest

@[simp] theorem signs_nil : signs nil = [] := rfl

theorem signs_cons (label : Label) (cs rest : Forest Label) :
    signs (cons label cs rest) = signs (tree label cs) ++ signs rest := by
  simp [signs, tree]

@[simp] theorem signs_append (f g : Forest Label) : signs (f ++ g) = signs f ++ signs g := by
  induction f with
  | nil => rfl
  | cons label cs rest _ ih => simp [signs, ih]

theorem signs_tree_of_isLandmark {label : Label} (cs : Forest Label)
    (h : label.isLandmark = true) : signs (tree label cs) = [Sign.of label cs] := by
  simp [signs, tree, h]

theorem signs_tree {label : Label} (cs : Forest Label) (h : label.isLandmark = false) :
    signs (tree label cs) = signs cs := by
  simp [signs, tree, h]

theorem signs_labels (f : Forest Node) : signs (labels f) = (landmarks f).map Landmark.sign := by
  induction f with
  | nil => rfl
  | cons node cs rest ihc ihr =>
    rw [labels_cons, signs_cons, landmarks_cons, List.map_append, ihr]
    by_cases hl : node.label.isLandmark = true
    · rw [signs_tree_of_isLandmark _ hl, landmarks_tree_of_isLandmark _ hl]
      rfl
    · rw [Bool.not_eq_true] at hl
      rw [signs_tree _ hl, landmarks_tree _ hl, ihc]
      simp

theorem signs_eq_nil_of_quiet {f : Forest Label} (h : Quiet f) : signs f = [] := by
  induction f with
  | nil => rfl
  | cons label cs rest ihc ihr =>
    obtain ⟨hl, hcs, hrest⟩ := quiet_cons.mp h
    rw [signs_cons, signs_tree _ hl, ihc hcs, ihr hrest, List.append_nil]

/-! ## Anchors among signs -/

namespace Sign

/-- The insertion point of an anchor. -/
def anchorId? : Sign → Option String
  | .anchor id => some id
  | .text _ _ => none

end Sign

/-- The insertion points of the anchors. -/
def anchorIds (ss : List Sign) : List String :=
  ss.filterMap Sign.anchorId?

@[simp] theorem anchorIds_nil : anchorIds [] = [] := rfl

@[simp] theorem anchorIds_append (ss ss' : List Sign) :
    anchorIds (ss ++ ss') = anchorIds ss ++ anchorIds ss' :=
  List.filterMap_append

@[simp] theorem anchorIds_cons_anchor (id : String) (ss : List Sign) :
    anchorIds (.anchor id :: ss) = id :: anchorIds ss := rfl

@[simp] theorem anchorIds_cons_text (marks : List String) (content : String)
    (ss : List Sign) : anchorIds (.text marks content :: ss) = anchorIds ss := rfl

/-- The insertion point of a node that is an anchor. -/
def Xml.Label.anchorId? (l : Label) : Option String :=
  if l.isAnchor then some ((l.attribute? Word.insertionAttribute).getD "") else none

theorem isLandmark_of_isAnchor {l : Label} (h : l.isAnchor = true) : l.isLandmark = true := by
  simp [Label.isLandmark, h]

theorem anchorId?_eq_none {l : Label} (h : l.isLandmark = false) : l.anchorId? = none := by
  rw [Label.anchorId?, if_neg]
  intro ha
  rw [isLandmark_of_isAnchor ha] at h
  cases h

theorem anchorId?_signOf (l : Label) (cs : Forest Label) : (Sign.of l cs).anchorId? = l.anchorId? := by
  rw [Sign.of, Label.anchorId?]
  split <;> rfl

/-- What there is to each sign of a sound forest can be read off its nodes. -/
theorem filterMap_signs {α : Type} {φ : Sign → Option α} {ψ : Label → Option α} {mute : List String}
    {f : Forest Label} (hof : ∀ l cs, l.isLandmark = true → φ (Sign.of l cs) = ψ l)
    (hnone : ∀ l, l.isLandmark = false → ψ l = none) (h : Sound mute f) :
    (signs f).filterMap φ = f.toList.filterMap ψ := by
  induction f with
  | nil => rfl
  | cons l cs rest ihc ihr =>
    obtain ⟨hl, -, hcs, hrest⟩ := h
    rw [signs_cons, List.filterMap_append, ihr hrest, toList, List.filterMap_cons,
      List.filterMap_append]
    by_cases hland : l.isLandmark = true
    · have hquiet : cs.toList.filterMap ψ = [] := by
        rw [List.filterMap_eq_nil_iff]
        exact fun l' hl' => hnone l' ((hl hland).1 l' hl')
      rw [hquiet, signs_tree_of_isLandmark _ hland, List.filterMap_cons, hof l cs hland]
      cases ψ l <;> rfl
    · rw [Bool.not_eq_true] at hland
      rw [signs_tree _ hland, ihc hcs, hnone l hland]

/-- The anchors of a sound forest can be read off its nodes. -/
theorem anchorIds_signs {mute : List String} {f : Forest Label} (h : Sound mute f) :
    anchorIds (signs f) = f.toList.filterMap Label.anchorId? :=
  filterMap_signs (fun l cs _ => anchorId?_signOf l cs) (fun _ hl => anchorId?_eq_none hl) h

theorem isAnchor_eq_false_of_anchorIds {mute : List String} {f : Forest Label} (hs : Sound mute f)
    (h : anchorIds (signs f) = []) : ∀ l ∈ f.toList, l.isAnchor = false := by
  intro l hl
  rw [anchorIds_signs hs, List.filterMap_eq_nil_iff] at h
  have hnone := h l hl
  rw [Label.anchorId?] at hnone
  split at hnone
  · cases hnone
  · next hanchor => simpa using hanchor

/-! ## Marks among signs -/

/-- The marks of a text. -/
def Sign.marks? : Sign → Option (List String)
  | .anchor _ => none
  | .text marks _ => some marks

/-- The marks of a node that is a text. -/
def Xml.Label.textMarks? (l : Label) : Option (List String) :=
  if l.isLandmark && !l.isAnchor then some l.marks else none

/-- The marks of the texts of a sound forest can be read off its nodes. -/
theorem textMarks_signs {mute : List String} {f : Forest Label} (h : Sound mute f) :
    (signs f).filterMap Sign.marks? = f.toList.filterMap Label.textMarks? := by
  refine filterMap_signs (fun l cs hl => ?_) (fun l hl => ?_) h
  · rw [Sign.of, Label.textMarks?, hl]
    cases l.isAnchor <;> rfl
  · rw [Label.textMarks?, hl]
    rfl

open Block

/-- A node with the insertion point in front of a block is an anchor. -/
theorem isAnchor_of_isOn {l : Label} {kind : Directive.Kind} {number : Nat}
    (h : (startPoint kind number).isOn l = true) : l.isAnchor = true := by
  rw [InsertionPoint.isOn, beq_iff_eq] at h
  rw [Label.isAnchor, h]
  simp [isPrefixOf_endMark_startPoint]

/-- The insertion point of an anchor is on it. -/
theorem isOn_iff {l : Label} {kind : Directive.Kind} {number : Nat} :
    (startPoint kind number).isOn l = true ↔ l.anchorId? = some (startPoint kind number).id := by
  constructor
  · intro h
    have ha := isAnchor_of_isOn h
    rw [InsertionPoint.isOn, beq_iff_eq] at h
    simp [Label.anchorId?, ha, h]
  · intro h
    rw [Label.anchorId?] at h
    split at h
    · next ha =>
      rw [Label.isAnchor] at ha
      cases hattr : l.attribute? Word.insertionAttribute with
      | none => simp [hattr] at ha
      | some id => simpa [InsertionPoint.isOn, hattr] using h
    · cases h

theorem countP_isOn_eq_zero {f : Forest Label} {kind : Directive.Kind} {number : Nat}
    (h : Quiet f) : f.toList.countP (startPoint kind number).isOn = 0 := by
  rw [List.countP_eq_zero]
  intro l hl hon
  have := h l hl
  rw [isLandmark_of_isAnchor (isAnchor_of_isOn hon)] at this
  cases this

/-- In a sound forest the nodes with an insertion point can be counted among the signs. -/
theorem countP_isOn {mute : List String} {f : Forest Label} (h : Sound mute f)
    (kind : Directive.Kind) (number : Nat) :
    f.toList.countP (startPoint kind number).isOn =
      (anchorIds (signs f)).count (startPoint kind number).id := by
  induction f with
  | nil => rfl
  | cons l cs rest ihc ihr =>
    obtain ⟨hl, -, hcs, hrest⟩ := h
    rw [signs_cons, anchorIds_append, List.count_append, toList, List.countP_cons,
      List.countP_append, ihr hrest]
    by_cases hland : l.isLandmark = true
    · rw [countP_isOn_eq_zero (hl hland).1, signs_tree_of_isLandmark _ hland]
      by_cases hon : (startPoint kind number).isOn l = true
      · simp [hon, anchorIds, anchorId?_signOf, isOn_iff.mp hon, Nat.add_comm]
      · have hne : (Sign.of l cs).anchorId? ≠ some (startPoint kind number).id :=
          fun he => hon (isOn_iff.mpr (anchorId?_signOf l cs ▸ he))
        have : (anchorIds [Sign.of l cs]).count (startPoint kind number).id = 0 := by
          rw [List.count_eq_zero]
          intro hmem
          obtain ⟨s, hs, he⟩ := List.mem_filterMap.mp hmem
          rw [List.mem_singleton] at hs
          exact hne (hs ▸ he)
        simp [hon, this]
    · rw [Bool.not_eq_true] at hland
      have hon : (startPoint kind number).isOn l = false := by
        rw [← Bool.not_eq_true]
        intro hon
        rw [isLandmark_of_isAnchor (isAnchor_of_isOn hon)] at hland
        cases hland
      rw [signs_tree _ hland, ihc hcs, hon]
      simp

theorem filter_eq_singleton {α : Type} {p : α → Bool} {l : List α} {x : α}
    (h : l.countP p = 1) (hx : x ∈ l) (hp : p x = true) : l.filter p = [x] := by
  rw [List.countP_eq_length_filter, List.length_eq_one_iff] at h
  obtain ⟨y, hy⟩ := h
  have : x ∈ l.filter p := List.mem_filter.mpr ⟨hx, hp⟩
  rw [hy, List.mem_singleton] at this
  rw [hy, this]

/-- The one node of a sound forest with the insertion point in front of a block. -/
theorem filter_isOn {mute : List String} {f : Forest Node} {node : Node} {kind : Directive.Kind}
    {number : Nat} (hs : Sound mute (labels f)) (hmem : node ∈ f.toList)
    (hon : (startPoint kind number).isOn node.label = true)
    (hone : (anchorIds (signs (labels f))).count (startPoint kind number).id = 1) :
    f.toList.filter ((startPoint kind number).isOn ·.label) = [node] := by
  refine filter_eq_singleton ?_ hmem hon
  rw [← hone, ← countP_isOn hs, labels, toList_map, List.countP_map]
  rfl

end WordTemplate
