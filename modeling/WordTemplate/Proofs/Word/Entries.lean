import WordTemplate.FlatText
import WordTemplate.Proofs.Word.Run

/-!
# The map of flattened text

The flattened text of a scope can be read off its chart. Taking a number of characters from the
front of a chart shortens some texts and leaves out others, and the map from characters to places
can follow this.

* `ofDocument_eq`: the flattened text of a charted scope.
* `Isolable`: what a list of texts has to follow for directives to be isolated.
* `Isolable.foldl_dropFront`: taking characters from the front of a chart.
* `mapIdx_flatEntries`: how the map follows.
-/

namespace WordTemplate

open Xml Forest FlatText

/-- The characters that a landmark shows. -/
def Sign.chars : Sign → List Char
  | .text _ s => s.toList
  | .anchor _ => []

/-- The characters of a text with their places. -/
def Landmark.entries (x : Landmark) : List Entry :=
  entriesOf x.node x.sign.chars

/-- The characters of a chart with their places. -/
def flatEntries (ls : List Landmark) : List Entry :=
  ls.flatMap Landmark.entries

@[simp] theorem flatEntries_nil : flatEntries [] = [] := rfl

@[simp] theorem flatEntries_cons (x : Landmark) (ls : List Landmark) :
    flatEntries (x :: ls) = x.entries ++ flatEntries ls := rfl

@[simp] theorem flatEntries_append (ls ls' : List Landmark) :
    flatEntries (ls ++ ls') = flatEntries ls ++ flatEntries ls' :=
  List.flatMap_append

@[simp] theorem length_entries (x : Landmark) : x.entries.length = x.sign.chars.length := by
  simp [Landmark.entries, entriesOf]

theorem node_eq_of_mem_entries {x : Landmark} {e : Entry} (h : e ∈ x.entries) : e.node = x.node := by
  rw [Landmark.entries, entriesOf, List.mem_mapIdx] at h
  obtain ⟨i, hi, rfl⟩ := h
  rfl

theorem exists_of_mem_flatEntries {ls : List Landmark} {e : Entry} (h : e ∈ flatEntries ls) :
    ∃ x ∈ ls, e.node = x.node := by
  obtain ⟨x, hx, he⟩ := List.mem_flatMap.mp h
  exact ⟨x, hx, node_eq_of_mem_entries he⟩

theorem map_char_entries (x : Landmark) : x.entries.map Entry.char = x.sign.chars := by
  simp [Landmark.entries, entriesOf, Function.comp_def, List.mapIdx_eq_zipIdx_map]

/-! ## The flattened text of a scope -/

/-- The text elements of a sound forest are those of its landmarks that are no anchors. -/
theorem textElements_eq {mute : List String} {f : Forest Node} (h : Sound mute (labels f)) :
    (f.toList.filter (·.label.isNamed Word.text)).map Node.id =
      ((landmarks f).filter (!·.sign.isAnchor)).map Landmark.node := by
  induction f with
  | nil => rfl
  | cons node cs rest ihc ihr =>
    rw [labels_cons, sound_cons] at h
    rw [landmarks_cons, List.filter_append, List.map_append, ← ihr h.2, toList, List.filter_cons,
      List.filter_append]
    by_cases hl : node.label.isLandmark = true
    · obtain ⟨hq, hexclusive⟩ := h.1.1 hl
      have hnone : cs.toList.filter (·.label.isNamed Word.text) = [] := by
        rw [List.filter_eq_nil_iff]
        intro n hn hnamed
        have := hq n.label (by rw [labels, toList_map]; exact List.mem_map_of_mem hn)
        rw [Label.isLandmark, hnamed, Bool.or_true] at this
        cases this
      rw [hnone, landmarks_tree_of_isLandmark cs hl]
      rw [Label.isLandmark] at hl
      by_cases ha : node.label.isAnchor = true
      · rw [ha, Bool.true_and] at hexclusive
        simp [isAnchor_signOf, ha, hexclusive]
      · rw [Bool.not_eq_true] at ha
        rw [ha, Bool.false_or] at hl
        simp [isAnchor_signOf, ha, hl]
    · rw [Bool.not_eq_true] at hl
      have hnamed : node.label.isNamed Word.text = false := by
        rw [Label.isLandmark, Bool.or_eq_false_iff] at hl
        exact hl.2
      rw [hnamed, if_neg Bool.false_ne_true, List.map_append, landmarks_tree cs hl, List.filter_map,
        List.map_map, ihc h.1.children]
      rfl

section Charted

variable {d : Document} {root : NodeId} {mute : List String} {ls u v : List Landmark} {x : Landmark}

/-- The flattened text of a scope is that of its chart. -/
theorem ofDocument_eq (h : Charted d root mute ls) :
    (FlatText.ofDocument d root).entries = flatEntries ls := by
  have key : ∀ v u : List Landmark, ls = u ++ v →
      ((v.filter (!·.sign.isAnchor)).map Landmark.node).flatMap
        (fun n => entriesOf n (d.innerText n).toList) = flatEntries v := by
    intro v
    induction v with
    | nil => intro _ _; rfl
    | cons x v ih =>
      rintro u rfl
      have hv := ih (u ++ [x]) (by simp)
      cases hx : x.sign with
      | anchor id =>
        rw [List.filter_cons_of_neg (by simp [hx, Sign.isAnchor]), hv, flatEntries_cons,
          Landmark.entries, hx]
        rfl
      | text marks s =>
        rw [List.filter_cons_of_pos (by simp [hx, Sign.isAnchor]), List.map_cons, List.flatMap_cons,
          hv, flatEntries_cons, h.innerText_eq hx, Landmark.entries, hx]
        rfl
  rw [FlatText.ofDocument, Document.textElements, textElements_eq h.sound, h.landmarks_eq]
  exact key ls [] rfl

/-- No two landmarks of a chart are the same node. -/
theorem Charted.nodup (h : Charted d root mute ls) : (ls.map Landmark.node).Nodup := by
  have key : ∀ f : Forest Node, ((landmarks f).map Landmark.node).Sublist (ids f) := by
    intro f
    induction f with
    | nil => exact .refl _
    | cons node cs rest ihc ihr =>
      rw [landmarks_cons, List.map_append, ids_cons, ← List.cons_append]
      refine List.Sublist.append ?_ ihr
      by_cases hl : node.label.isLandmark = true
      · rw [landmarks_tree_of_isLandmark cs hl]
        simp
      · rw [landmarks_tree cs (by simpa using hl), List.map_map]
        exact ihc.cons node.id
  rw [← h.landmarks_eq]
  exact (h.wellFormed.nodup_treeAt root).sublist (key _)

end Charted

/-! ## Taking characters from the front of a chart -/

/-- The text without some characters at its front. -/
def Landmark.drop (x : Landmark) (count : Nat) : Landmark :=
  match x.sign with
  | .text marks s => ⟨x.node, .text marks (String.ofList (s.toList.drop count)), x.path⟩
  | .anchor _ => x

/-- The chart without some characters at its front. What has no characters stays. -/
def shorten : Nat → List Landmark → List Landmark
  | _, [] => []
  | k, x :: ls =>
    (if k = 0 ∨ x.sign.chars = [] then [x] else if x.sign.chars.length ≤ k then [] else [x.drop k]) ++
      shorten (k - x.sign.chars.length) ls

/-- The texts that lose characters, each with their number. -/
def consumed : Nat → List Landmark → List (NodeId × Nat)
  | _, [] => []
  | k, x :: ls =>
    (if k = 0 ∨ x.sign.chars = [] then [] else [(x.node, min k x.sign.chars.length)]) ++
      consumed (k - x.sign.chars.length) ls

@[simp] theorem shorten_zero (ls : List Landmark) : shorten 0 ls = ls := by
  induction ls with
  | nil => rfl
  | cons x ls ih => simp [shorten, ih]

theorem chars_drop (x : Landmark) (count : Nat) : (x.drop count).sign.chars = x.sign.chars.drop count := by
  unfold Landmark.drop
  cases hx : x.sign with
  | text marks s => simp [Sign.chars]
  | anchor id => simp [hx, Sign.chars]

@[simp] theorem node_drop (x : Landmark) (count : Nat) : (x.drop count).node = x.node := by
  unfold Landmark.drop
  split <;> rfl

theorem mem_consumed {k : Nat} {ls : List Landmark} {p : NodeId × Nat} (h : p ∈ consumed k ls) :
    ∃ x ∈ ls, p.1 = x.node := by
  induction ls generalizing k with
  | nil => simp [consumed] at h
  | cons x ls ih =>
    rw [consumed, List.mem_append] at h
    rcases h with h | h
    · split at h
      · simp at h
      · rw [List.mem_singleton] at h
        exact ⟨x, by simp, by rw [h]⟩
    · obtain ⟨y, hy, hp⟩ := ih h
      exact ⟨y, by simp [hy], hp⟩

/-! ## Lists that follow a document -/

/-- Whether the lists that `P` allows for a document follow it when its texts are changed. -/
structure Isolable (P : Document → List Landmark → Prop) : Prop where
  nodup : ∀ {d ls}, P d ls → (ls.map Landmark.node).Nodup
  innerText_eq : ∀ {d u x v marks s}, P d (u ++ x :: v) → x.sign = .text marks s → d.innerText x.node = s
  setText : ∀ {d u x v marks s}, P d (u ++ x :: v) → x.sign = .text marks s → ∀ content,
    P (d.setText x.node content) (u ++ ⟨x.node, .text marks content, x.path⟩ :: v)
  writeMarked : ∀ {d u x v marks s}, P d (u ++ x :: v) → x.sign = .text marks s → ∀ content name,
    P ((d.writeText x.node content).setAttribute x.node Word.markAttribute name)
      (u ++ ⟨x.node, .text (name :: marks.tail) content, x.path⟩ :: v)
  insertBefore : ∀ {d u x v}, P d (u ++ x :: v) → ∀ content,
    P ((d.createTextElement content).2.insertBefore x.node (d.createTextElement content).1)
      (u ++ ⟨(d.createTextElement content).1, .text [] content, x.path⟩ :: x :: v)
  insertAfter : ∀ {d u x v}, P d (u ++ x :: v) → ∀ content,
    P ((d.createTextElement content).2.insertAfter x.node (d.createTextElement content).1)
      (u ++ x :: ⟨(d.createTextElement content).1, .text [] content, x.path⟩ :: v)
  detachFromRun : ∀ {d u x v}, P d (u ++ x :: v) → P (d.detachFromRun x.node) (u ++ v)

/-- Charts follow a document. -/
theorem isolable_charted {d₀ : Document} {root : NodeId} {mute : List String} (wf₀ : d₀.WellFormed)
    (hs : root ∈ d₀.ids) (hmute : Word.text ∉ mute) :
    Isolable fun d ls => d₀.Within d root ∧ Charted d root mute ls where
  nodup h := h.2.nodup
  innerText_eq h hx := h.2.innerText_eq hx
  setText h hx content := setText_chart h.1 wf₀ hs h.2 hx content
  writeMarked h hx content name := writeMarked_spec h.1 wf₀ hs h.2 hx content name
  insertBefore h content := insertBefore_chart h.1 wf₀ hs hmute h.2 content
  insertAfter h content := insertAfter_chart h.1 wf₀ hs hmute h.2 content
  detachFromRun h := detachFromRun_chart h.1 wf₀ hs h.2

section Isolable

variable {P : Document → List Landmark → Prop} {d : Document} {u v ls : List Landmark} {x : Landmark}
  {marks : List String} {s : String}

/-- Taking characters from the front of a text. -/
theorem Isolable.dropFront (hP : Isolable P) (h : P d (u ++ x :: v)) (hx : x.sign = .text marks s)
    (count : Nat) :
    P (FlatText.dropFront d x.node count) (u ++ ((if s.toList.length ≤ count then []
      else [⟨x.node, .text marks (String.ofList (s.toList.drop count)), x.path⟩]) ++ v)) := by
  simp only [FlatText.dropFront, hP.innerText_eq h hx, List.isEmpty_iff, List.drop_eq_nil_iff]
  split
  · exact hP.detachFromRun h
  · exact hP.setText h hx _

/-- Taking away what texts lose. -/
theorem Isolable.foldl_dropFront (hP : Isolable P) {k : Nat} {taken : NodeId → Nat} (h : P d (v ++ ls))
    (htaken : ∀ p ∈ consumed k ls, taken p.1 = p.2) :
    P (((consumed k ls).map Prod.fst).foldl (fun d n => FlatText.dropFront d n (taken n)) d)
      (v ++ shorten k ls) := by
  induction ls generalizing d v k with
  | nil => exact h
  | cons x ls ih =>
    rw [consumed] at htaken
    rw [consumed, shorten]
    by_cases hx : k = 0 ∨ x.sign.chars = []
    · rw [if_pos hx] at htaken
      rw [if_pos hx, if_pos hx]
      have := ih (v := v ++ [x]) (k := k - x.sign.chars.length) (by simpa using h) htaken
      simpa using this
    · rw [if_neg hx] at htaken
      rw [if_neg hx, if_neg hx]
      have hthis : taken x.node = min k x.sign.chars.length := htaken (x.node, _) (by simp)
      rw [not_or] at hx
      cases hsign : x.sign with
      | anchor id => simp [hsign, Sign.chars] at hx
      | text marks s =>
        have h' := hP.dropFront h hsign (taken x.node)
        simp only [hsign, Sign.chars] at hthis hx htaken ⊢
        rw [List.map_append, List.foldl_append]
        simp only [List.map_cons, List.map_nil, List.foldl_cons, List.foldl_nil]
        have hsame : (if s.toList.length ≤ taken x.node then []
            else [(⟨x.node, .text marks (String.ofList (s.toList.drop (taken x.node))), x.path⟩ :
              Landmark)]) = if s.toList.length ≤ k then [] else [x.drop k] := by
          rw [hthis]
          by_cases hk : s.toList.length ≤ k
          · rw [if_pos hk, if_pos (by omega)]
          · rw [if_neg hk, if_neg (by omega), Landmark.drop, hsign, Nat.min_eq_left (by omega)]
        rw [hsame] at h'
        have := ih (v := v ++ if s.toList.length ≤ k then [] else [x.drop k])
          (k := k - s.toList.length) (by simpa using h') fun p hp => htaken p (by simp [hp])
        by_cases hk : s.toList.length ≤ k
        · simpa [hk] using this
        · simpa [hk] using this

end Isolable

/-! ## The texts that lose characters -/

/-- The characters at the front of a chart are in the texts that lose them. -/
theorem eraseDups_nodes {ls : List Landmark} (hnd : (ls.map Landmark.node).Nodup) (k : Nat) :
    (((flatEntries ls).take k).map Entry.node).eraseDups = (consumed k ls).map Prod.fst := by
  induction ls generalizing k with
  | nil => simp [consumed, List.eraseDups_nil]
  | cons x ls ih =>
    rw [List.map_cons, List.nodup_cons] at hnd
    rw [flatEntries_cons, List.take_append, length_entries, List.map_append, consumed]
    have hnodes : (x.entries.take k).map Entry.node =
        List.replicate (min k x.sign.chars.length) x.node := by
      rw [List.eq_replicate_iff]
      refine ⟨by simp, fun n hn => ?_⟩
      obtain ⟨e, he, rfl⟩ := List.mem_map.mp hn
      exact node_eq_of_mem_entries (List.mem_of_mem_take he)
    have hrest := ih hnd.2 (k - x.sign.chars.length)
    have hout : x.node ∉ ((flatEntries ls).take (k - x.sign.chars.length)).map Entry.node := by
      intro hmem
      obtain ⟨e, he, hnode⟩ := List.mem_map.mp hmem
      obtain ⟨y, hy, hey⟩ := exists_of_mem_flatEntries (List.mem_of_mem_take he)
      exact hnd.1 (hnode ▸ hey ▸ List.mem_map_of_mem hy)
    rw [hnodes]
    by_cases hx : k = 0 ∨ x.sign.chars = []
    · rw [if_pos hx]
      have : min k x.sign.chars.length = 0 := by
        rcases hx with rfl | hx
        · simp
        · simp [hx]
      rw [this]
      simpa using hrest
    · rw [if_neg hx, not_or] at *
      have hlen : x.sign.chars.length ≠ 0 := by
        rw [ne_eq, List.length_eq_zero_iff]
        exact hx.2
      obtain ⟨m, hm⟩ : ∃ m, min k x.sign.chars.length = m + 1 := ⟨_, (Nat.succ_pred (by omega)).symm⟩
      rw [hm, List.replicate_succ, List.cons_append, List.eraseDups_cons, List.filter_append]
      have h₁ : (List.replicate m x.node).filter (fun n => !n == x.node) = [] := by
        rw [List.filter_eq_nil_iff]
        intro n hn
        simp [List.eq_of_mem_replicate hn]
      have h₂ : (((flatEntries ls).take (k - x.sign.chars.length)).map Entry.node).filter
          (fun n => !n == x.node) =
          ((flatEntries ls).take (k - x.sign.chars.length)).map Entry.node := by
        rw [List.filter_eq_self]
        intro n hn
        have : n ≠ x.node := fun he => hout (he ▸ hn)
        simpa using this
      rw [h₁, h₂, List.nil_append, hrest]
      simp

/-- How many of the characters at the front of a chart are in one text. -/
theorem countP_node {ls : List Landmark} (hnd : (ls.map Landmark.node).Nodup) (k : Nat) :
    (∀ p ∈ consumed k ls, ((flatEntries ls).take k).countP (·.node == p.1) = p.2) ∧
      ∀ n, n ∉ (consumed k ls).map Prod.fst →
        ((flatEntries ls).take k).countP (·.node == n) = 0 := by
  refine ⟨?_, fun n hn => ?_⟩
  · induction ls generalizing k with
    | nil => simp [consumed]
    | cons x ls ih =>
      intro p hp
      rw [List.map_cons, List.nodup_cons] at hnd
      rw [consumed, List.mem_append] at hp
      rw [flatEntries_cons, List.take_append, length_entries, List.countP_append]
      have hx : (x.entries.take k).countP (·.node == x.node) = min k x.sign.chars.length := by
        rw [List.countP_eq_length.mpr]
        · simp
        · intro e he
          simp [node_eq_of_mem_entries (List.mem_of_mem_take he)]
      rcases hp with hp | hp
      · split at hp
        · simp at hp
        · rw [List.mem_singleton] at hp
          subst hp
          rw [hx, Nat.add_eq_left, List.countP_eq_zero]
          intro e he hnode
          obtain ⟨y, hy, hey⟩ := exists_of_mem_flatEntries (List.mem_of_mem_take he)
          have hnode : e.node = x.node := by simpa using hnode
          exact hnd.1 (hnode ▸ hey ▸ List.mem_map_of_mem hy)
      · rw [ih hnd.2 _ p hp, Nat.add_eq_right, List.countP_eq_zero]
        intro e he hnode
        obtain ⟨y, hy, hpy⟩ := mem_consumed hp
        rw [beq_iff_eq, node_eq_of_mem_entries (List.mem_of_mem_take he)] at hnode
        exact hnd.1 (hnode ▸ hpy ▸ List.mem_map_of_mem hy)
  · rw [← eraseDups_nodes hnd, List.mem_eraseDups] at hn
    rw [List.countP_eq_zero]
    intro e he hnode
    rw [beq_iff_eq] at hnode
    exact hn (hnode ▸ List.mem_map_of_mem he)

/-! ## How the map follows -/

theorem entriesOf_append (n : NodeId) (s t : List Char) :
    entriesOf n (s ++ t) = entriesOf n s ++ t.mapIdx fun i c => ⟨c, n, i + s.length⟩ := by
  simp [entriesOf, List.mapIdx_append]

/-- Moving the characters at the front of a text elsewhere. -/
theorem mapIdx_entries {x : Landmark} {target : NodeId} {k j t : Nat} (ht : k < x.sign.chars.length → t = k) :
    (x.entries.mapIdx fun i e =>
        if i < k then ⟨e.char, target, i + j⟩ else { e with offset := e.offset - t }) =
      ((x.entries.take k).mapIdx fun i e => ⟨e.char, target, i + j⟩) ++
        entriesOf x.node (x.sign.chars.drop k) := by
  refine List.ext_getElem (by simp [entriesOf]; omega) fun i h₁ h₂ => ?_
  have hi : i < x.sign.chars.length := by simpa using h₁
  rw [List.getElem_mapIdx, List.getElem_append]
  by_cases hk : i < k
  · rw [dif_pos (by simp; omega)]
    simp [hk]
  · have hlen : ((x.entries.take k).mapIdx fun i e =>
        (⟨e.char, target, i + j⟩ : Entry)).length = k := by
      simp
      omega
    simp only [hlen, hk, dif_neg, not_false_eq_true, if_false]
    simp only [Landmark.entries, entriesOf, List.getElem_mapIdx, List.getElem_drop, ht (by omega)]
    congr 1
    congr 1
    omega

/-- Moving the characters at the front of a chart elsewhere. -/
theorem mapIdx_flatEntries {ls : List Landmark} {target : NodeId} {taken : NodeId → Nat} {k j : Nat}
    (hnd : (ls.map Landmark.node).Nodup) (htaken : ∀ p ∈ consumed k ls, taken p.1 = p.2)
    (hzero : ∀ x ∈ ls, x.node ∉ (consumed k ls).map Prod.fst → taken x.node = 0) :
    ((flatEntries ls).mapIdx fun i e =>
        if i < k then ⟨e.char, target, i + j⟩ else { e with offset := e.offset - taken e.node }) =
      (((flatEntries ls).take k).mapIdx fun i e => ⟨e.char, target, i + j⟩) ++
        flatEntries (shorten k ls) := by
  induction ls generalizing k j with
  | nil => simp [shorten]
  | cons x ls ih =>
    rw [List.map_cons, List.nodup_cons] at hnd
    have hrest : ∀ y ∈ ls, y.node ≠ x.node := fun y hy he => hnd.1 (he ▸ List.mem_map_of_mem hy)
    have hout : x.node ∉ (consumed (k - x.sign.chars.length) ls).map Prod.fst := by
      intro hmem
      obtain ⟨p, hp, he⟩ := List.mem_map.mp hmem
      obtain ⟨y, hy, hpy⟩ := mem_consumed hp
      exact hrest y hy (hpy.symm.trans he)
    have hsub : ∀ p, p ∈ consumed (k - x.sign.chars.length) ls → p ∈ consumed k (x :: ls) := by
      intro p hp
      rw [consumed]
      exact List.mem_append_right _ hp
    have ih' := ih (k := k - x.sign.chars.length) (j := j + x.sign.chars.length) hnd.2
      (fun p hp => htaken p (hsub p hp)) fun y hy hyc => hzero y (by simp [hy]) fun hmem => hyc (by
        rw [consumed, List.map_append, List.mem_append] at hmem
        refine hmem.resolve_left fun h => ?_
        split at h
        · simp at h
        · exact hrest y hy (by simpa using h))
    -- The characters of the first text, and then the others.
    have hfirst : (x.entries.mapIdx fun i e =>
        if i < k then ⟨e.char, target, i + j⟩ else { e with offset := e.offset - taken e.node }) =
        ((x.entries.take k).mapIdx fun i e => ⟨e.char, target, i + j⟩) ++
          entriesOf x.node (x.sign.chars.drop k) := by
      rw [← mapIdx_entries (t := taken x.node)]
      · refine List.mapIdx_eq_mapIdx_iff.mpr fun i hi => ?_
        rw [node_eq_of_mem_entries (List.getElem_mem hi)]
      · intro hk
        by_cases hx : k = 0 ∨ x.sign.chars = []
        · refine (hzero x (by simp) ?_).trans ?_
          · rw [consumed, if_pos hx, List.nil_append]
            exact hout
          · rcases hx with rfl | hx
            · rfl
            · simp [hx] at hk
        · refine (htaken (x.node, min k x.sign.chars.length) ?_).trans (by simp; omega)
          rw [consumed, if_neg hx]
          simp
    have hlater : ((flatEntries ls).mapIdx fun i e =>
        if i + x.sign.chars.length < k then (⟨e.char, target, i + x.sign.chars.length + j⟩ : Entry)
        else { e with offset := e.offset - taken e.node }) =
        (((flatEntries ls).take (k - x.sign.chars.length)).mapIdx fun i e =>
          (⟨e.char, target, i + x.sign.chars.length + j⟩ : Entry)) ++
          flatEntries (shorten (k - x.sign.chars.length) ls) := by
      rw [show (fun (i : Nat) (e : Entry) => (⟨e.char, target, i + x.sign.chars.length + j⟩ : Entry)) =
        fun i e => ⟨e.char, target, i + (j + x.sign.chars.length)⟩ by
          funext i e
          congr 1
          omega, ← ih']
      refine List.mapIdx_eq_mapIdx_iff.mpr fun i hi => ?_
      by_cases hk : i + x.sign.chars.length < k
      · rw [if_pos hk, if_pos (by omega)]
        congr 1
        omega
      · rw [if_neg hk, if_neg (by omega)]
    rw [flatEntries_cons, List.mapIdx_append, hfirst, length_entries, hlater, List.take_append,
      length_entries, List.mapIdx_append, shorten, flatEntries_append]
    have hmid : entriesOf x.node (x.sign.chars.drop k) = flatEntries
        (if k = 0 ∨ x.sign.chars = [] then [x]
          else if x.sign.chars.length ≤ k then [] else [x.drop k]) := by
      by_cases hx : k = 0 ∨ x.sign.chars = []
      · rw [if_pos hx]
        rcases hx with rfl | hx
        · simp [Landmark.entries]
        · simp [Landmark.entries, hx]
      · rw [if_neg hx]
        by_cases hk : x.sign.chars.length ≤ k
        · rw [if_pos hk, List.drop_eq_nil_of_le hk]
          rfl
        · rw [if_neg hk, flatEntries_cons, Landmark.entries, chars_drop, node_drop, flatEntries_nil,
            List.append_nil]
    rw [← hmid]
    by_cases hk : k < x.sign.chars.length
    · have h0 : k - x.sign.chars.length = 0 := by omega
      simp [h0]
    · have hdrop : x.sign.chars.drop k = [] := List.drop_eq_nil_of_le (by omega)
      have hmin : min k x.sign.chars.length = x.sign.chars.length := by omega
      simp [hdrop, entriesOf, hmin]

end WordTemplate
