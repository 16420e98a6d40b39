import WordTemplate.Proofs.Xml.Contents
import WordTemplate.Proofs.Xml.Editing

/-!
# The two halves of a divided element

`Separates` says what a division does with the content below `container`: what goes is below the new
element, the rest is below `container` still, each in the order of before, and the node at which the
division takes place stays as it is. `divide_keeps_content` says it of both divisions, with what goes
and with the place of the new element.
-/

namespace WordTemplate.Xml.Document

open Forest

variable {d d' : Document} {container place : NodeId} {as bs parts gone p : Forest Node} {a b : Node}
  {below : Division} {goes : List NodeId}

/-- The content below `n`. -/
def contentTrees (d : Document) (n : NodeId) : Forest Node :=
  Xml.contentTrees (d.treeAt n).firstChildren

/-- The nodes below `n` that are content, in document order. -/
def contents (d : Document) (n : NodeId) : List NodeId :=
  Xml.contents (d.treeAt n).firstChildren

/-- The content of `d` below the new element of `d'`, if there is one. -/
def partContents (d d' : Document) (part : Option NodeId) : List NodeId :=
  (part.toList.flatMap d'.contents).filter (· ∈ d.ids)

/-- Dividing `container` at `place` has moved the content among `goes` to the new element `part`. -/
structure Separates (d d' : Document) (container place : NodeId) (part : Option NodeId)
    (goes : List NodeId) : Prop where
  grows : d.Grows d'
  part_not_mem : ∀ n ∈ part, n ∉ d.ids
  place_mem : place ∈ d'.descendants container
  treeAt_place : d'.treeAt place = d.treeAt place
  contents_container : d'.contents container = (d.contents container).filter (· ∉ goes)
  contents_part : d.partContents d' part = (d.contents container).filter (· ∈ goes)
  /-- Without a new element, no content goes or moves. -/
  unchanged : part = none → (∀ n ∈ d.contents container, n ∉ goes) ∧
    d'.contentTrees container = d.contentTrees container

theorem contents_of_tree (ht : d.treeAt container = tree a as) :
    d.contents container = Xml.contents as := by
  rw [contents, ht]
  rfl

theorem contents_sublist (d : Document) (n : NodeId) : (d.contents n).Sublist (d.descendants n) :=
  Xml.contents_sublist _

/-- What the parts of a division are, from what stays and what goes on the level below `container`. -/
theorem Settles.separates (h : d.Settles d' a.id parts) (wf : d.WellFormed)
    (ht : d.treeAt a.id = tree a as) (hb : d.treeAt b.id = tree b bs) (hle : d.fresh ≤ below.fresh)
    (hkept : ∃ l r, parts = l ++ (tree a below.kept ++ r))
    (hlower : ∃ l r, parts = l ++ ((below.raise a p gone).lower ++ r))
    (hspot : ∃ up l r, below.kept = wrap up (l ++ cons b bs r))
    (hold : ∀ i ∈ Xml.ids gone, i.number < d.fresh → i ∈ d.ids)
    (hstay : Xml.contents below.kept = (Xml.contents as).filter (· ∉ goes))
    (hgo : older d.fresh (Xml.contents gone) = (Xml.contents as).filter (· ∈ goes))
    (hnone : Xml.contentTrees gone = nil → Xml.contentTrees below.kept = Xml.contentTrees as) :
    d.Separates d' a.id b.id ((below.raise a p gone).lower.roots.map Node.id).head? goes := by
  have wf' := h.grows.wellFormed
  have ht' : d'.treeAt a.id = tree a below.kept := by
    obtain ⟨l, r, rfl⟩ := hkept
    exact h.treeAt_root
  have hmem : b.id ∈ Xml.ids below.kept := by
    obtain ⟨up, l₀, r₀, hspot⟩ := hspot
    rw [hspot, ids_wrap]
    simp
  have htreeAt : d'.treeAt b.id = d.treeAt b.id := by
    obtain ⟨up, l₀, r₀, hspot⟩ := hspot
    have hnd := wf'.nodup_treeAt a.id
    rw [ht', ids_tree, List.nodup_cons] at hnd
    rw [← wf'.treeAt_children ht' hmem, treeAt_spot hnd.2 hspot, hb]
  have hcontainer : d'.contents a.id = (d.contents a.id).filter (· ∉ goes) := by
    rw [contents_of_tree ht', contents_of_tree ht, hstay]
  -- The old nodes are those with smaller numbers.
  have holder : (Xml.contents gone).filter (· ∈ d.ids) = older d.fresh (Xml.contents gone) :=
    List.filter_congr fun i hi => by
      have := hold i ((Xml.contents_sublist _).mem hi)
      simpa using ⟨wf.lt_fresh i, this⟩
  obtain ⟨hnil, hgone⟩ | ⟨cs, htree, hcs⟩ := lower_cases below a p gone
  · have hempty : Xml.contents gone = [] := by rw [Xml.contents, hgone]; rfl
    rw [hempty] at hgo
    rw [hnil]
    have hfilter : (d.contents a.id).filter (· ∈ goes) = [] := by
      rw [contents_of_tree ht, ← hgo]
      rfl
    refine ⟨h.grows, by simp [roots], by rwa [descendants_of_tree ht'], htreeAt, hcontainer, ?_, ?_⟩
    · rw [hfilter]
      rfl
    · refine fun _ => ⟨fun n hn => by simpa using List.filter_eq_nil_iff.mp hfilter n hn, ?_⟩
      rw [contentTrees, contentTrees, ht, ht']
      exact hnone hgone
  · rw [htree] at hlower ⊢
    have hpart : d'.treeAt ⟨below.fresh⟩ = tree ⟨⟨below.fresh⟩, a.label⟩ cs := by
      obtain ⟨l, r, rfl⟩ := hlower
      exact h.treeAt_root (b := ⟨⟨below.fresh⟩, a.label⟩)
    refine ⟨h.grows, ?_, by rwa [descendants_of_tree ht'], htreeAt, hcontainer, ?_, by simp⟩
    · intro n hn hmem
      obtain rfl : n = ⟨below.fresh⟩ := by simpa [Eq.comm] using hn
      exact absurd (wf.lt_fresh _ hmem) (Nat.not_lt.mpr hle)
    · have hcontents : d'.contents ⟨below.fresh⟩ = Xml.contents gone := by
        rw [contents_of_tree hpart, Xml.contents, hcs, Xml.contents]
      rw [contents_of_tree ht, ← hgo, ← holder, ← hcontents]
      simp [partContents]

/-! ## The two divisions at a spot -/

section Spot

variable {up : List (Forest.Frame Node)} {l r : Forest Node}

/-- A node below `a` is in a spot there. -/
theorem WellFormed.exists_spot_below (wf : d.WellFormed) (hplace : place ∈ d.descendants container) :
    ∃ a up l b bs r, a.id = container ∧ b.id = place ∧
      d.treeAt a.id = tree a (wrap up (l ++ cons b bs r)) := by
  obtain ⟨a, as, rfl, ht, hmem⟩ := wf.exists_treeAt_of_mem_descendants hplace
  obtain ⟨up, l, b, bs, r, rfl, rfl⟩ := exists_spot hmem
  exact ⟨a, up, l, b, bs, r, rfl, rfl, ht⟩

/-- The new element of a division is one element or none. -/
theorem toList_head?_lower (δ : Division) (node : Node) (p gone : Forest Node) :
    ((δ.raise node p gone).lower.roots.map Node.id).head?.toList =
      (δ.raise node p gone).lower.roots.map Node.id := by
  obtain ⟨h, -⟩ | ⟨cs, h, -⟩ := lower_cases δ node p gone <;> rw [h] <;> rfl

theorem WellFormed.treeAt_spot_below (wf : d.WellFormed)
    (ht : d.treeAt a.id = tree a (wrap up (l ++ cons b bs r))) : d.treeAt b.id = tree b bs := by
  have hnd := wf.nodup_treeAt a.id
  rw [ht, ids_tree, List.nodup_cons] at hnd
  rw [← wf.treeAt_children ht (by simp [ids_wrap]), treeAt_spot hnd.2 rfl]

theorem WellFormed.lt_fresh_of_tree (wf : d.WellFormed) (ht : d.treeAt container = tree a as) :
    ∀ i ∈ Xml.ids as, i ∈ d.ids ∧ i.number < d.fresh := by
  intro i hi
  have hmem := wf.mem_ids_of_mem_treeAt (n := container) (m := i) (by simp [ht, hi])
  exact ⟨hmem, wf.lt_fresh i hmem⟩

theorem WellFormed.divideAfter_separates (wf : d.WellFormed)
    (ht : d.treeAt a.id = tree a (wrap up (l ++ cons b bs r)))
    {back : List NodeId} (hback : back = Xml.ids r ++ (closing up).map Node.id) :
    ∃ tail, (d.divideAfter a.id b.id).1 = a.id :: tail.toList ∧
      d.Separates (d.divideAfter a.id b.id).2 a.id b.id tail back ∧
      (d.divideAfter a.id b.id).2.descendants a.id =
        (opening up).map Node.id ++ Xml.ids l ++ (b.id :: Xml.ids bs) ∧
      ∀ t ∈ tail, (d.parent? a.id).isSome → (d.divideAfter a.id b.id).2.nextSibling? a.id = some t := by
  have hmem : b.id ∈ Xml.ids (wrap up (l ++ cons b bs r)) := by simp [ids_wrap]
  have hnd := wf.nodup_treeAt a.id
  rw [ht, ids_tree, List.nodup_cons] at hnd
  have hold := wf.lt_fresh_of_tree ht
  obtain ⟨hresult, hsettles⟩ := wf.settles_after ht hmem rfl
  obtain ⟨hstay, hgo⟩ := contents_after hnd.2 (fun i hi => (hold i hi).2) rfl hback
  obtain ⟨below, hbelow⟩ : ∃ δ, Division.after b.id d.fresh (wrap up (l ++ cons b bs r)) = δ := ⟨_, rfl⟩
  have hconserves := conserves_after b.id d.fresh (wrap up (l ++ cons b bs r))
  have hkept := kept_after d.fresh hnd.2
  have hnone := contentTrees_kept_after d.fresh hnd.2 hmem
  rw [hbelow] at hresult hsettles hstay hgo hconserves hkept hnone
  obtain ⟨lower, hlower⟩ : ∃ f, (below.raise a (below.kept ++ below.moved)
    (below.lower ++ below.moved)).lower = f := ⟨_, rfl⟩
  have hsettles : d.Settles (d.divideAfter a.id b.id).2 a.id (nil ++ (tree a below.kept ++ lower)) :=
    hlower ▸ hsettles
  refine ⟨(lower.roots.map Node.id).head?, ?_, ?_, ?_, ?_⟩
  · rw [← hlower, toList_head?_lower]
    exact hresult
  · refine hlower ▸ hsettles.separates wf ht (wf.treeAt_spot_below ht) hconserves.fresh_le ⟨nil, _, rfl⟩
      ⟨_, nil, by rw [append_nil, hlower]; rfl⟩ ⟨_, l, nil, hkept⟩
      (fun i hi hlt => (hold i (hconserves.mem_of_lt hi hlt)).1) hstay hgo fun hgone => ?_
    rw [contentTrees_append, append_eq_nil_iff] at hgone
    exact hnone hgone.1 hgone.2
  · rw [descendants_of_tree hsettles.treeAt_root, hkept, ids_wrap]
    simp
  · intro t htail hparent
    obtain ⟨hnil, -⟩ | ⟨cs, htree, -⟩ :=
      lower_cases below a (below.kept ++ below.moved) (below.lower ++ below.moved)
    · simp [← hlower, hnil, roots] at htail
    · rw [← hlower, htree] at htail hsettles
      obtain rfl : (⟨below.fresh⟩ : NodeId) = t := by simpa using htail
      exact Settles.nextSibling?_eq hsettles wf hparent

theorem WellFormed.divideBefore_separates (wf : d.WellFormed)
    (ht : d.treeAt a.id = tree a (wrap up (l ++ cons b bs r)))
    {front : List NodeId} (hfront : front = (opening up).map Node.id ++ Xml.ids l)
    (hgoes : goes = front.filter (· ∉ up.map (·.value.id))) :
    ∃ head, (d.divideBefore a.id b.id).1 = head.toList ++ [a.id] ∧
      d.Separates (d.divideBefore a.id b.id).2 a.id b.id head goes ∧
      (∃ above, (d.divideBefore a.id b.id).2.descendants a.id =
        above ++ (b.id :: Xml.ids bs) ++ (Xml.ids r ++ (closing up).map Node.id)) ∧
      ∀ t ∈ head, (d.parent? a.id).isSome →
        (d.divideBefore a.id b.id).2.previousSibling? a.id = some t := by
  have hmem : b.id ∈ Xml.ids (wrap up (l ++ cons b bs r)) := by simp [ids_wrap]
  have hnd := wf.nodup_treeAt a.id
  rw [ht, ids_tree, List.nodup_cons] at hnd
  have hold := wf.lt_fresh_of_tree ht
  obtain ⟨hresult, hsettles⟩ := wf.settles_before ht hmem rfl
  obtain ⟨hstay, hgo⟩ := contents_before hnd.2 (fun i hi => (hold i hi).2) rfl hfront hgoes
  obtain ⟨below, hbelow⟩ : ∃ δ, Division.before b.id d.fresh (wrap up (l ++ cons b bs r)) = δ := ⟨_, rfl⟩
  have hconserves := conserves_before b.id d.fresh (wrap up (l ++ cons b bs r))
  have hkept := kept_before d.fresh hnd.2
  have hnone := contentTrees_kept_before d.fresh hnd.2 hmem
  rw [hbelow] at hresult hsettles hstay hgo hconserves hkept hnone
  obtain ⟨lower, hlower⟩ : ∃ f, (below.raise a below.kept (below.moved ++ below.lower)).lower = f :=
    ⟨_, rfl⟩
  have hsettles : d.Settles (d.divideBefore a.id b.id).2 a.id (lower ++ (tree a below.kept ++ nil)) :=
    hlower ▸ hsettles
  refine ⟨(lower.roots.map Node.id).head?, ?_, ?_, ?_, ?_⟩
  · rw [← hlower, toList_head?_lower]
    exact hresult
  · refine hlower ▸ hsettles.separates wf ht (wf.treeAt_spot_below ht) hconserves.fresh_le ⟨_, nil, rfl⟩
      ⟨nil, _, by rw [hlower]; rfl⟩ ⟨_, _, r, hkept⟩
      (fun i hi hlt => (hold i (hconserves.mem_of_lt hi hlt)).1) hstay hgo fun hgone => ?_
    rw [contentTrees_append, append_eq_nil_iff] at hgone
    exact hnone hgone.1 hgone.2
  · refine ⟨(opening (up.map Frame.beginHere)).map Node.id ++ Xml.ids (properties l), ?_⟩
    rw [descendants_of_tree hsettles.treeAt_root, hkept, ids_wrap]
    simp
  · intro t hhead hparent
    obtain ⟨hnil, -⟩ | ⟨cs, htree, -⟩ := lower_cases below a below.kept (below.moved ++ below.lower)
    · simp [← hlower, hnil, roots] at hhead
    · rw [← hlower, htree] at hhead hsettles
      obtain rfl : (⟨below.fresh⟩ : NodeId) = t := by simpa using hhead
      rw [append_nil] at hsettles
      exact Settles.previousSibling?_eq hsettles wf hparent

end Spot

/-! ## Both divisions -/

/-- The members of a list that come from the front, and then those that come from the back. -/
theorem filter_append_filter {l u v : List NodeId} {p q : NodeId → Bool} (h : l.Sublist (u ++ v))
    (hu : ∀ i ∈ u, p i = true ∧ q i = false) (hv : ∀ i ∈ v, p i = false ∧ q i = true) :
    l.filter p ++ l.filter q = l := by
  obtain ⟨l₁, l₂, rfl, h₁, h₂⟩ := List.sublist_append_iff.mp h
  have hp₁ : l₁.filter p = l₁ := List.filter_eq_self.mpr fun i hi => (hu i (h₁.mem hi)).1
  have hq₁ : l₁.filter q = [] := List.filter_eq_nil_iff.mpr fun i hi => by simp [(hu i (h₁.mem hi)).2]
  have hp₂ : l₂.filter p = [] := List.filter_eq_nil_iff.mpr fun i hi => by simp [(hv i (h₂.mem hi)).1]
  have hq₂ : l₂.filter q = l₂ := List.filter_eq_self.mpr fun i hi => (hv i (h₂.mem hi)).2
  rw [List.filter_append, List.filter_append, hp₁, hq₁, hp₂, hq₂, List.append_nil, List.nil_append]

theorem WellFormed.not_mem_ancestors {n i : NodeId} (wf : d.WellFormed)
    (h : i ∈ Xml.ids (d.treeAt n)) : i ∉ d.ancestors n := by
  intro hi
  have hn := wf.mem_treeAt_of_isAncestor (n := i) (m := n) (by simpa [isAncestor] using hi)
  by_cases hne : i = n
  · exact (List.nodup_cons.mp (wf.nodup_ancestors n)).1 (hne ▸ hi)
  · exact wf.not_mem_treeAt h hne hn

/-- The nodes above `b` among those below `a`. -/
theorem WellFormed.mem_ancestors_iff {up : List (Forest.Frame Node)} {l r : Forest Node} {i : NodeId}
    (wf : d.WellFormed) (ht : d.treeAt a.id = tree a (wrap up (l ++ cons b bs r)))
    (hi : i ∈ Xml.ids (wrap up (l ++ cons b bs r))) :
    i ∈ d.ancestors b.id ↔ i ∈ up.map (·.value.id) := by
  obtain ⟨l', r', outer, htrees, houter⟩ := wf.exists_below ht
  have hnot : i ≠ a.id ∧ i ∉ d.ancestors a.id := by
    refine ⟨?_, wf.not_mem_ancestors (by simp [ht, hi])⟩
    have hnd := wf.nodup_treeAt a.id
    rw [ht, ids_tree, List.nodup_cons] at hnd
    exact fun he => hnd.1 (he ▸ hi)
  rw [houter] at hnot
  rw [ancestors_eq wf htrees]
  simp only [List.map_append, List.map_cons, List.mem_append, List.mem_cons]
  tauto

/-- Dividing an element loses no content and reorders none. After a node below it: the content behind
the node goes to a new element behind `container`, all other nodes stay where they are. Before a
node: the content in front of it goes to a new element in front of `container`, except for the nodes
above it, which stay. -/
theorem divide_keeps_content (wf : d.WellFormed) (hplace : place ∈ d.descendants container) :
    ∃ front back, d.descendants container = front ++ (place :: d.descendants place) ++ back ∧
      (∃ tail, (d.divideAfter container place).1 = container :: tail.toList ∧
        d.Separates (d.divideAfter container place).2 container place tail back ∧
        (d.divideAfter container place).2.descendants container =
          front ++ (place :: d.descendants place) ∧
        (d.divideAfter container place).2.contents container ++
          d.partContents (d.divideAfter container place).2 tail = d.contents container ∧
        ∀ t ∈ tail, (d.parent? container).isSome →
          (d.divideAfter container place).2.nextSibling? container = some t) ∧
      ∃ head, (d.divideBefore container place).1 = head.toList ++ [container] ∧
        d.Separates (d.divideBefore container place).2 container place head
          (front.filter (· ∉ d.ancestors place)) ∧
        (∃ above, (d.divideBefore container place).2.descendants container =
          above ++ (place :: d.descendants place) ++ back) ∧
        (d.partContents (d.divideBefore container place).2 head ++
            (d.divideBefore container place).2.contents container).filter (· ∉ d.ancestors place) =
          (d.contents container).filter (· ∉ d.ancestors place) ∧
        ∀ t ∈ head, (d.parent? container).isSome →
          (d.divideBefore container place).2.previousSibling? container = some t := by
  obtain ⟨a, up, l, b, bs, r, rfl, rfl, ht⟩ := wf.exists_spot_below hplace
  obtain ⟨front, hfront⟩ : ∃ front, front = (opening up).map Node.id ++ Xml.ids l := ⟨_, rfl⟩
  obtain ⟨back, hback⟩ : ∃ back, back = Xml.ids r ++ (closing up).map Node.id := ⟨_, rfl⟩
  have hplace := descendants_of_tree (wf.treeAt_spot_below ht)
  have hids : Xml.ids (wrap up (l ++ cons b bs r)) = front ++ (b.id :: Xml.ids bs) ++ back := by
    rw [ids_wrap, hfront, hback]
    simp
  have hdescendants : d.descendants a.id = front ++ (b.id :: d.descendants b.id) ++ back := by
    rw [descendants_of_tree ht, hplace, hids]
  have hsub := hdescendants ▸ d.contents_sublist a.id
  have hnd : (front ++ (b.id :: d.descendants b.id) ++ back).Nodup := by
    have hnd := wf.nodup_treeAt a.id
    rw [ht, ids_tree, List.nodup_cons] at hnd
    rw [hplace, ← hids]
    exact hnd.2
  refine ⟨front, back, hdescendants, ?_, ?_⟩
  · obtain ⟨tail, hresult, hseparates, hkept, hnext⟩ := wf.divideAfter_separates ht hback
    refine ⟨tail, hresult, hseparates, by rw [hkept, hplace, hfront], ?_, hnext⟩
    have hdis := (List.nodup_append.mp hnd).2.2
    rw [hseparates.contents_container, hseparates.contents_part]
    exact filter_append_filter hsub (fun i hi => by simpa using fun h => hdis i hi i h rfl)
      fun i hi => by simpa using hi
  · -- Above the place, the nodes of the document are those of its spot.
    have habove : front.filter (· ∉ d.ancestors b.id) = front.filter (· ∉ up.map (·.value.id)) :=
      List.filter_congr fun i hi => by
        rw [decide_eq_decide, wf.mem_ancestors_iff ht (by rw [hids]; simp [hi])]
    obtain ⟨goes, hgoes⟩ : ∃ goes, goes = front.filter (· ∉ d.ancestors b.id) := ⟨_, rfl⟩
    obtain ⟨head, hresult, hseparates, ⟨above, hkept⟩, hprevious⟩ :=
      wf.divideBefore_separates ht hfront (hgoes.trans habove)
    rw [← hgoes]
    refine ⟨head, hresult, hseparates, ⟨above, by rw [hkept, hplace, hback]⟩, ?_, hprevious⟩
    rw [List.append_assoc] at hsub hnd
    have hdis := (List.nodup_append.mp hnd).2.2
    rw [hseparates.contents_container, hseparates.contents_part, List.filter_append,
      List.filter_comm _ (fun i => decide (i ∈ goes)), List.filter_comm _ (fun i => decide (i ∉ goes))]
    refine filter_append_filter (u := goes)
      (v := ((b.id :: d.descendants b.id) ++ back).filter (· ∉ d.ancestors b.id)) ?_ ?_ ?_
    · rw [hgoes, ← List.filter_append]
      exact hsub.filter _
    · exact fun i hi => by simpa using hi
    · intro i hi
      have hi := (List.mem_filter.mp hi).1
      have hnot : i ∉ goes := fun h => hdis i (List.mem_filter.mp (hgoes ▸ h)).1 i hi rfl
      simp [hnot]

/-- A paragraph with a run of two texts. Behind it, below an empty text node, is another run. -/
def hiddenContent : Document :=
  .ofTree ⟨"w:body", []⟩ <| tree (.element ⟨"w:p", []⟩) <|
    tree (.element ⟨"w:r", []⟩) (tree (.element ⟨"w:t", []⟩) nil ++ tree (.element ⟨"w:t", []⟩) nil) ++
      tree (.text "") (tree (.element ⟨"w:r", []⟩) nil)

/-- The paragraph is divided at the second text. -/
theorem divide_keeps_content_run :
    ⟨4⟩ ∈ hiddenContent.descendants ⟨1⟩ ∧
      (∃ tail, (hiddenContent.divideAfter ⟨1⟩ ⟨4⟩).1 = ⟨1⟩ :: tail.toList ∧
        (hiddenContent.divideAfter ⟨1⟩ ⟨4⟩).2.contents ⟨1⟩ ++
          hiddenContent.partContents (hiddenContent.divideAfter ⟨1⟩ ⟨4⟩).2 tail = [⟨2⟩, ⟨3⟩, ⟨4⟩]) ∧
      ∃ head, (hiddenContent.divideBefore ⟨1⟩ ⟨4⟩).1 = head.toList ++ [⟨1⟩] ∧
        (hiddenContent.partContents (hiddenContent.divideBefore ⟨1⟩ ⟨4⟩).2 head ++
          (hiddenContent.divideBefore ⟨1⟩ ⟨4⟩).2.contents ⟨1⟩).filter
            (· ∉ hiddenContent.ancestors ⟨4⟩) = [⟨3⟩, ⟨4⟩] := by
  have hplace : ⟨4⟩ ∈ hiddenContent.descendants ⟨1⟩ := by decide +kernel
  obtain ⟨-, -, -, ⟨tail, hafter, -, -, horder, -⟩, head, hbefore, -, -, horder', -⟩ :=
    divide_keeps_content (wellFormed_ofTree _ _) hplace
  exact ⟨hplace, ⟨tail, hafter, horder.trans (by decide +kernel)⟩, head, hbefore,
    horder'.trans (by decide +kernel)⟩

/-- Content below an empty text node is lost with the counterpart that would have held it, and a
node above the place stays behind content that it stood in front of. -/
theorem divide_loses_and_reorders_content :
    hiddenContent.WellFormed ∧ (∀ n ∈ hiddenContent.descendants ⟨1⟩, hiddenContent.isProperty n = false) ∧
      hiddenContent.descendants ⟨1⟩ = [⟨2⟩, ⟨3⟩, ⟨4⟩, ⟨5⟩, ⟨6⟩] ∧
      hiddenContent.label? ⟨6⟩ = some (.element ⟨"w:r", []⟩) ∧
      (hiddenContent.divideAfter ⟨1⟩ ⟨4⟩).1 = [⟨1⟩] ∧
      (hiddenContent.divideAfter ⟨1⟩ ⟨4⟩).2.descendants ⟨1⟩ = [⟨2⟩, ⟨3⟩, ⟨4⟩] ∧
      (hiddenContent.divideBefore ⟨1⟩ ⟨4⟩).1 = [⟨8⟩, ⟨1⟩] ∧
      ((hiddenContent.divideBefore ⟨1⟩ ⟨4⟩).2.descendants ⟨8⟩ ++
        (hiddenContent.divideBefore ⟨1⟩ ⟨4⟩).2.descendants ⟨1⟩).filter (· ∈ hiddenContent.ids) =
          [⟨3⟩, ⟨2⟩, ⟨4⟩, ⟨5⟩, ⟨6⟩] :=
  ⟨wellFormed_ofTree _ _, by decide +kernel⟩

end WordTemplate.Xml.Document
