import WordTemplate.Proofs.Xml.Spot
import WordTemplate.Word.Mark

/-!
# Landmarks

What processing a template looks for in a tree are text elements and the anchors of blocks: the
landmarks. `landmarks` lists them in document order, each with what it shows and the nodes above it.
Of all other nodes only that remains which lies above a landmark.

* `landmarks_wrap`: changing what is in a spot changes the list in one stretch.
* `exists_landmark_spot`: where a landmark stands.
* `exists_fork`: where two landmarks stand below the nearest node above both.
-/

namespace WordTemplate

open Xml Forest

namespace Xml.Label

/-- Whether this is a text element or an anchor. -/
def isLandmark (l : Label) : Bool :=
  l.isAnchor || l.isNamed Word.text

/-- The kinds of directives that this is marked as. -/
def marks : Label → List String
  | element tag => (tag.attributes.filter (·.1 == Word.markAttribute)).map Prod.snd
  | text _ => []

end Xml.Label

/-- A node above a landmark. -/
structure Crumb where
  node : NodeId
  name : Option String
  deriving DecidableEq

/-- What a landmark shows. -/
inductive Sign where
  | text (marks : List String) (content : String)
  | anchor (id : String)
  deriving DecidableEq

structure Landmark where
  node : NodeId
  sign : Sign
  /-- The nodes above, nearest first. -/
  path : List Crumb
  deriving DecidableEq

/-- What a landmark with this label and these children shows. -/
def signOf (label : Label) (children : Forest Node) : Sign :=
  if label.isAnchor then .anchor ((label.attribute? Word.insertionAttribute).getD "")
  else .text label.marks (innerText (labels children))

/-- Whether this is the sign of an anchor. -/
def Sign.isAnchor : Sign → Bool
  | .anchor _ => true
  | .text _ _ => false

theorem isAnchor_signOf (label : Label) (cs : Forest Node) :
    (signOf label cs).isAnchor = label.isAnchor := by
  unfold signOf
  split
  · next h => rw [h]; rfl
  · next h => rw [Bool.not_eq_true] at h; rw [h]; rfl

def crumbOf (node : Node) : Crumb :=
  ⟨node.id, node.label.name?⟩

namespace Landmark

/-- The identifiers of the nodes above. -/
def above (x : Landmark) : List NodeId :=
  x.path.map Crumb.node

/-- The landmark with more nodes above it. -/
def below (x : Landmark) (outer : List Crumb) : Landmark :=
  { x with path := x.path ++ outer }

@[simp] theorem below_node (x : Landmark) (outer : List Crumb) : (x.below outer).node = x.node :=
  rfl

@[simp] theorem below_sign (x : Landmark) (outer : List Crumb) : (x.below outer).sign = x.sign :=
  rfl

@[simp] theorem below_path (x : Landmark) (outer : List Crumb) :
    (x.below outer).path = x.path ++ outer := rfl

@[simp] theorem below_nil (x : Landmark) : x.below [] = x := by
  simp [below]

@[simp] theorem below_below (x : Landmark) (inner outer : List Crumb) :
    (x.below inner).below outer = x.below (inner ++ outer) := by
  simp [below]

@[simp] theorem above_below (x : Landmark) (outer : List Crumb) :
    (x.below outer).above = x.above ++ outer.map Crumb.node := by
  simp [above]

end Landmark

/-- The landmarks of a forest in document order. -/
def landmarks : Forest Node → List Landmark
  | .nil => []
  | .cons node cs rest =>
    (if node.label.isLandmark then [⟨node.id, signOf node.label cs, []⟩]
      else (landmarks cs).map (·.below [crumbOf node])) ++ landmarks rest

@[simp] theorem landmarks_nil : landmarks nil = [] := rfl

theorem landmarks_cons (node : Node) (cs rest : Forest Node) :
    landmarks (cons node cs rest) = landmarks (tree node cs) ++ landmarks rest := by
  simp [landmarks, tree]

theorem landmarks_tree_of_isLandmark {node : Node} (cs : Forest Node)
    (h : node.label.isLandmark = true) :
    landmarks (tree node cs) = [⟨node.id, signOf node.label cs, []⟩] := by
  simp [landmarks, tree, h]

theorem landmarks_tree {node : Node} (cs : Forest Node) (h : node.label.isLandmark = false) :
    landmarks (tree node cs) = (landmarks cs).map (·.below [crumbOf node]) := by
  simp [landmarks, tree, h]

@[simp] theorem landmarks_append (f g : Forest Node) :
    landmarks (f ++ g) = landmarks f ++ landmarks g := by
  induction f with
  | nil => rfl
  | cons node cs rest _ ih => simp [landmarks, ih]

/-- The topmost of the nodes above a landmark of a tree is the root of the tree. -/
theorem getLast?_path {node : Node} {cs : Forest Node} {x : Landmark}
    (hl : node.label.isLandmark = false) (hx : x ∈ landmarks (tree node cs)) :
    x.path.getLast? = some (crumbOf node) := by
  rw [landmarks_tree cs hl] at hx
  obtain ⟨y, -, rfl⟩ := List.mem_map.mp hx
  simp

/-- The nodes of landmarks and the nodes above them are in the forest. -/
theorem mem_ids_of_mem_landmarks {f : Forest Node} {x : Landmark} (h : x ∈ landmarks f) :
    x.node ∈ ids f ∧ ∀ i ∈ x.above, i ∈ ids f := by
  induction f generalizing x with
  | nil => simp at h
  | cons node cs rest ihc ihr =>
    rw [landmarks_cons, List.mem_append] at h
    rcases h with h | h
    · by_cases hl : node.label.isLandmark = true
      · rw [landmarks_tree_of_isLandmark cs hl] at h
        obtain rfl : x = _ := by simpa using h
        simp [Landmark.above]
      · rw [landmarks_tree cs (by simpa using hl)] at h
        obtain ⟨y, hy, rfl⟩ := List.mem_map.mp h
        obtain ⟨hn, hp⟩ := ihc hy
        refine ⟨by simp [hn], fun i hi => ?_⟩
        rw [Landmark.above_below, List.mem_append] at hi
        rcases hi with hi | hi
        · simp [hp i hi]
        · obtain rfl : i = node.id := by simpa [crumbOf] using hi
          simp
    · obtain ⟨hn, hp⟩ := ihr h
      exact ⟨by simp [hn], fun i hi => by simp [hp i hi]⟩

/-! ## Landmarks around a spot -/

/-- The crumbs of the nodes above a spot, nearest first. -/
def crumbs (up : List (Frame Node)) : List Crumb :=
  up.map fun fr => crumbOf fr.value

/-- Whether none of the nodes above a spot is a landmark. -/
def IsOpen (up : List (Frame Node)) : Prop :=
  ∀ fr ∈ up, fr.value.label.isLandmark = false

/-- The landmarks before a spot. -/
def landmarksBefore : List (Frame Node) → List Landmark
  | [] => []
  | fr :: up => landmarksBefore up ++ (landmarks fr.before).map (·.below (crumbs up))

/-- The landmarks after a spot. -/
def landmarksAfter : List (Frame Node) → List Landmark
  | [] => []
  | fr :: up => (landmarks fr.after).map (·.below (crumbs up)) ++ landmarksAfter up

@[simp] theorem crumbs_nil : crumbs [] = [] := rfl

@[simp] theorem crumbs_cons (fr : Frame Node) (up : List (Frame Node)) :
    crumbs (fr :: up) = crumbOf fr.value :: crumbs up := rfl

@[simp] theorem crumbs_append (inner outer : List (Frame Node)) :
    crumbs (inner ++ outer) = crumbs inner ++ crumbs outer := by
  simp [crumbs]

theorem landmarks_wrap {up : List (Frame Node)} (hup : IsOpen up) (f : Forest Node) :
    landmarks (wrap up f) =
      landmarksBefore up ++ ((landmarks f).map (·.below (crumbs up)) ++ landmarksAfter up) := by
  induction up generalizing f with
  | nil => simp [wrap, landmarksBefore, landmarksAfter]
  | cons fr up ih =>
    have hv : fr.value.label.isLandmark = false := hup fr (by simp)
    rw [wrap, ih (fun x hx => hup x (by simp [hx]))]
    simp [landmarks_cons, landmarks_tree _ hv, landmarksBefore, landmarksAfter]

theorem landmarksBefore_concat (up : List (Frame Node)) (fr : Frame Node) :
    landmarksBefore (up ++ [fr]) =
      landmarks fr.before ++ (landmarksBefore up).map (·.below [crumbOf fr.value]) := by
  induction up with
  | nil => simp [landmarksBefore]
  | cons fr' up ih => simp [landmarksBefore, ih]

theorem landmarksAfter_concat (up : List (Frame Node)) (fr : Frame Node) :
    landmarksAfter (up ++ [fr]) =
      (landmarksAfter up).map (·.below [crumbOf fr.value]) ++ landmarks fr.after := by
  induction up with
  | nil => simp [landmarksAfter]
  | cons fr' up ih => simp [landmarksAfter, ih]

/-- A spot behind one more tree. -/
theorem exists_spot_cons (node : Node) (cs : Forest Node) (up : List (Frame Node))
    (l : Forest Node) (hup : IsOpen up) :
    ∃ up' l', (∀ f, cons node cs (wrap up (l ++ f)) = wrap up' (l' ++ f)) ∧ IsOpen up' ∧
      crumbs up' = crumbs up ∧ landmarksAfter up' = landmarksAfter up ∧
      landmarksBefore up' ++ (landmarks l').map (·.below (crumbs up)) =
        landmarks (tree node cs) ++
          (landmarksBefore up ++ (landmarks l).map (·.below (crumbs up))) := by
  rcases List.eq_nil_or_concat up with rfl | ⟨outer, fr, rfl⟩
  · refine ⟨[], cons node cs l, fun _ => rfl, hup, rfl, rfl, ?_⟩
    simp [landmarksBefore, landmarks_cons node cs l]
  · rw [List.concat_eq_append] at hup ⊢
    refine ⟨outer ++ [⟨cons node cs fr.before, fr.value, fr.after⟩], l, ?_, ?_, ?_, ?_, ?_⟩
    · intro f
      simp [wrap_append, wrap]
    · intro fr' hfr
      rcases List.mem_append.mp hfr with h | h
      · exact hup fr' (by simp [h])
      · obtain rfl : fr' = _ := by simpa using h
        exact hup fr (by simp)
    · simp
    · simp [landmarksAfter_concat]
    · simp [landmarksBefore_concat, landmarks_cons node cs fr.before]

/-- Where a landmark stands. -/
theorem exists_landmark_spot {f : Forest Node} {u w : List Landmark} {x : Landmark}
    (h : landmarks f = u ++ x :: w) :
    ∃ up l node cs r, f = wrap up (l ++ cons node cs r) ∧ IsOpen up ∧
      node.label.isLandmark = true ∧ x = ⟨node.id, signOf node.label cs, crumbs up⟩ ∧
      u = landmarksBefore up ++ (landmarks l).map (·.below (crumbs up)) ∧
      w = (landmarks r).map (·.below (crumbs up)) ++ landmarksAfter up := by
  induction f generalizing u w x with
  | nil => simp at h
  | cons a as rest ihc ihr =>
    rw [landmarks_cons] at h
    rcases List.append_eq_append_iff.mp h with ⟨v, hu, hv⟩ | ⟨v, hv, hw⟩
    · -- The landmark is behind the first tree.
      obtain ⟨up, l, node, cs, r, hf, hup, hl, hx, hu', hw⟩ := ihr hv
      obtain ⟨up', l', hwrap, hup', hc, ha, hb⟩ := exists_spot_cons a as up l hup
      refine ⟨up', l', node, cs, r, ?_, hup', hl, ?_, ?_, ?_⟩
      · rw [hf, hwrap]
      · rw [hx, hc]
      · rw [hu, hu', hc, hb]
      · rw [hw, hc, ha]
    · cases v with
      | nil =>
        obtain ⟨up, l, node, cs, r, hf, hup, hl, hx, hu', hw'⟩ := ihr (u := []) (by simpa using hw.symm)
        obtain ⟨up', l', hwrap, hup', hc, ha, hb⟩ := exists_spot_cons a as up l hup
        refine ⟨up', l', node, cs, r, ?_, hup', hl, ?_, ?_, ?_⟩
        · rw [hf, hwrap]
        · rw [hx, hc]
        · rw [hc, hb, ← hu', List.append_nil, hv, List.append_nil]
        · rw [hw', hc, ha]
      | cons y v =>
        obtain ⟨rfl, rfl⟩ : x = y ∧ w = v ++ landmarks rest := by simpa using hw
        by_cases hl : a.label.isLandmark = true
        · rw [landmarks_tree_of_isLandmark as hl] at hv
          obtain ⟨rfl, hv'⟩ : u = [] ∧ _ := by
            cases u with
            | nil => exact ⟨rfl, hv⟩
            | cons => simp at hv
          obtain ⟨rfl, rfl⟩ : _ = x ∧ [] = v := by simpa using hv'
          exact ⟨[], nil, a, as, rest, rfl, by simp [IsOpen], hl, rfl, rfl,
            by simp [landmarksAfter]⟩
        · rw [landmarks_tree as (by simpa using hl)] at hv
          obtain ⟨u', t, has, rfl, ht⟩ := List.map_eq_append_iff.mp hv
          obtain ⟨x', w', rfl, rfl, rfl⟩ := List.map_eq_cons_iff.mp ht
          obtain ⟨up, l, node, cs, r, hf, hup, hn, hx, hu, hw⟩ := ihc has
          refine ⟨up ++ [⟨nil, a, rest⟩], l, node, cs, r, ?_, ?_, hn, ?_, ?_, ?_⟩
          · rw [wrap_append, ← hf]
            rfl
          · intro fr hfr
            rcases List.mem_append.mp hfr with h | h
            · exact hup fr h
            · obtain rfl : fr = _ := by simpa using h
              simpa using hl
          · rw [hx]
            simp [Landmark.below]
          · simp [hu, landmarksBefore_concat]
          · simp [hw, landmarksAfter_concat]

/-- The first tree with a landmark in it. -/
theorem exists_landmark_tree {f : Forest Node} {u w : List Landmark} {x : Landmark}
    (h : landmarks f = u ++ x :: w) :
    ∃ l node cs r u' w', f = l ++ cons node cs r ∧ landmarks (tree node cs) = u' ++ x :: w' ∧
      u = landmarks l ++ u' ∧ w = w' ++ landmarks r := by
  induction f generalizing u with
  | nil => simp at h
  | cons a as rest _ ih =>
    rw [landmarks_cons] at h
    rcases List.append_eq_append_iff.mp h with ⟨v, rfl, hv⟩ | ⟨v, hv, hw⟩
    · obtain ⟨l, node, cs, r, u', w', rfl, ht, rfl, rfl⟩ := ih hv
      exact ⟨cons a as l, node, cs, r, u', w', rfl, ht, by simp [landmarks_cons a as l], rfl⟩
    · cases v with
      | nil =>
        obtain ⟨l, node, cs, r, u', w', rfl, ht, hu, rfl⟩ := ih (u := []) (by simpa using hw.symm)
        refine ⟨cons a as l, node, cs, r, u', w', rfl, ht, ?_, rfl⟩
        rw [landmarks_cons a as l, List.append_assoc, ← hu, hv]
        simp
      | cons y v =>
        obtain ⟨rfl, rfl⟩ : x = y ∧ w = v ++ landmarks rest := by simpa using hw
        exact ⟨nil, a, as, rest, u, v, rfl, hv, by simp, rfl⟩

/-- Where the landmarks `x` and `y` of a forest stand: in two trees, side by side below `up`. -/
structure Fork (f : Forest Node) (u : List Landmark) (x : Landmark) (v : List Landmark)
    (y : Landmark) (w : List Landmark) where
  up : List (Frame Node)
  left : Forest Node
  a : Node
  as : Forest Node
  mid : Forest Node
  b : Node
  bs : Forest Node
  right : Forest Node
  /-- The landmarks in the tree at `a`. -/
  (u₁ : List Landmark) (x₁ : Landmark) (v₁ : List Landmark)
  /-- The landmarks in the tree at `b`. -/
  (v₂ : List Landmark) (y₂ : Landmark) (w₂ : List Landmark)
  trees_eq : f = wrap up (left ++ cons a as (mid ++ cons b bs right))
  isOpen : IsOpen up
  landmarks_a : landmarks (tree a as) = u₁ ++ x₁ :: v₁
  landmarks_b : landmarks (tree b bs) = v₂ ++ y₂ :: w₂
  x_eq : x = x₁.below (crumbs up)
  y_eq : y = y₂.below (crumbs up)
  u_eq : u = landmarksBefore up ++ (landmarks left ++ u₁).map (·.below (crumbs up))
  v_eq : v = (v₁ ++ (landmarks mid ++ v₂)).map (·.below (crumbs up))
  w_eq : w = (w₂ ++ landmarks right).map (·.below (crumbs up)) ++ landmarksAfter up

/-- A fork behind one more tree. -/
theorem Fork.cons {rest : Forest Node} {u v w : List Landmark} {x y : Landmark}
    (k : Fork rest u x v y w) (node : Node) (cs : Forest Node) :
    Nonempty (Fork (cons node cs rest) (landmarks (tree node cs) ++ u) x v y w) := by
  obtain ⟨up', l', hwrap, hup', hcr, haft, hbef⟩ := exists_spot_cons node cs k.up k.left k.isOpen
  refine ⟨⟨up', l', k.a, k.as, k.mid, k.b, k.bs, k.right, k.u₁, k.x₁, k.v₁, k.v₂, k.y₂, k.w₂, ?_,
    hup', k.landmarks_a, k.landmarks_b, hcr ▸ k.x_eq, hcr ▸ k.y_eq, ?_, hcr ▸ k.v_eq, ?_⟩⟩
  · rw [← hwrap, ← k.trees_eq]
  · refine (congrArg (landmarks (tree node cs) ++ ·) k.u_eq).trans ?_
    rw [hcr, List.map_append, List.map_append, ← List.append_assoc, ← List.append_assoc,
      ← List.append_assoc, hbef]
    simp
  · rw [hcr, haft]
    exact k.w_eq

/-- A fork below one more node. -/
theorem Fork.below {cs : Forest Node} {u v w : List Landmark} {x y : Landmark}
    (k : Fork cs u x v y w) {node : Node} (hl : node.label.isLandmark = false)
    (rest : Forest Node) :
    Nonempty (Fork (Forest.cons node cs rest) (u.map (·.below [crumbOf node]))
      (x.below [crumbOf node]) (v.map (·.below [crumbOf node])) (y.below [crumbOf node])
      (w.map (·.below [crumbOf node]) ++ landmarks rest)) := by
  refine ⟨⟨k.up ++ [⟨nil, node, rest⟩], k.left, k.a, k.as, k.mid, k.b, k.bs, k.right, k.u₁, k.x₁,
    k.v₁, k.v₂, k.y₂, k.w₂, ?_, ?_, k.landmarks_a, k.landmarks_b, ?_, ?_, ?_, ?_, ?_⟩⟩
  · rw [wrap_append, ← k.trees_eq]
    rfl
  · intro fr hfr
    rcases List.mem_append.mp hfr with h | h
    · exact k.isOpen fr h
    · obtain rfl : fr = _ := by simpa using h
      exact hl
  · refine (congrArg (·.below [crumbOf node]) k.x_eq).trans ?_
    simp
  · refine (congrArg (·.below [crumbOf node]) k.y_eq).trans ?_
    simp
  · refine (congrArg (List.map (·.below [crumbOf node])) k.u_eq).trans ?_
    simp [landmarksBefore_concat, Function.comp_def]
  · refine (congrArg (List.map (·.below [crumbOf node])) k.v_eq).trans ?_
    simp [Function.comp_def]
  · refine (congrArg (List.map (·.below [crumbOf node]) · ++ landmarks rest) k.w_eq).trans ?_
    simp [landmarksAfter_concat, Function.comp_def]

theorem exists_fork {f : Forest Node} {u v w : List Landmark} {x y : Landmark}
    (h : landmarks f = u ++ x :: (v ++ y :: w)) : Nonempty (Fork f u x v y w) := by
  induction f generalizing u v w x y with
  | nil => simp at h
  | cons a as rest ihc ihr =>
    -- The second landmark is behind the first tree.
    have hfirst : ∀ {t t' : List Landmark}, landmarks (tree a as) = u ++ x :: t → v = t ++ t' →
        landmarks rest = t' ++ y :: w → Nonempty (Fork (cons a as rest) u x v y w) := by
      intro t t' ht hv hr
      obtain ⟨mid, b, bs, r, v₂, w₂, rfl, hb, rfl, rfl⟩ := exists_landmark_tree hr
      exact ⟨⟨[], nil, a, as, mid, b, bs, r, u, x, t, v₂, y, w₂, rfl, by simp [IsOpen], ht, hb,
        by simp, by simp, by simp [landmarksBefore], by simp [hv], by simp [landmarksAfter]⟩⟩
    rw [landmarks_cons] at h
    rcases List.append_eq_append_iff.mp h with ⟨u', rfl, hr⟩ | ⟨t, ht, hw⟩
    · obtain ⟨k⟩ := ihr hr
      exact k.cons a as
    · cases t with
      | nil =>
        obtain ⟨k⟩ := ihr (u := []) (by simpa using hw.symm)
        have := k.cons a as
        rwa [List.append_nil, ht, List.append_nil] at this
      | cons x' t =>
        obtain ⟨rfl, hvw⟩ := List.cons.inj hw
        rcases List.append_eq_append_iff.mp hvw with ⟨t', rfl, ht'⟩ | ⟨t', rfl, ht'⟩
        · cases t' with
          | nil =>
            have hv : v = v ++ [] ++ [] := by simp
            exact hfirst ht hv (by simpa using ht'.symm)
          | cons y' t' =>
            obtain ⟨rfl, rfl⟩ : y = y' ∧ w = t' ++ landmarks rest := by simpa using ht'
            by_cases hl : a.label.isLandmark = true
            · rw [landmarks_tree_of_isLandmark as hl] at ht
              have := congrArg List.length ht
              simp at this
              omega
            · rw [landmarks_tree as (by simpa using hl)] at ht
              obtain ⟨u', s₁, has, rfl, hs₁⟩ := List.map_eq_append_iff.mp ht
              obtain ⟨x', s₂, rfl, rfl, hs₂⟩ := List.map_eq_cons_iff.mp hs₁
              obtain ⟨v', s₃, rfl, rfl, hs₃⟩ := List.map_eq_append_iff.mp hs₂
              obtain ⟨y', w', rfl, rfl, rfl⟩ := List.map_eq_cons_iff.mp hs₃
              obtain ⟨k⟩ := ihc has
              exact k.below (by simpa using hl) rest
        · exact hfirst ht rfl ht'

end WordTemplate
