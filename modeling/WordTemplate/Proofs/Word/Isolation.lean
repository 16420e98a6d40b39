import WordTemplate.Proofs.Word.Entries

/-!
# Isolating a directive

Isolating a stretch of characters makes one marked text of it. What was before and after it in the
text where it began becomes a text of its own, and the texts behind lose their part. The map of the
flattened text stays exact.

* `mapIdx_place`: where the characters are afterwards.
* `Isolable.isolate_spec`: the chart and the map afterwards.
-/

namespace WordTemplate

open Xml Forest FlatText

/-- A text with this content; none for an empty one. -/
def partOf (n : NodeId) (path : List Crumb) (content : List Char) : List Landmark :=
  if content = [] then [] else [⟨n, .text [] (String.ofList content), path⟩]

@[simp] theorem flatEntries_partOf (n : NodeId) (path : List Crumb) (content : List Char) :
    flatEntries (partOf n path content) = entriesOf n content := by
  unfold partOf
  split
  · next h => rw [h]; rfl
  · simp [Landmark.entries, Sign.chars]

/-- The characters of a chart. -/
def flatChars (ls : List Landmark) : List Char :=
  ls.flatMap (·.sign.chars)

@[simp] theorem flatChars_nil : flatChars [] = [] := rfl

@[simp] theorem flatChars_cons (x : Landmark) (ls : List Landmark) :
    flatChars (x :: ls) = x.sign.chars ++ flatChars ls := rfl

@[simp] theorem flatChars_append (ls ls' : List Landmark) :
    flatChars (ls ++ ls') = flatChars ls ++ flatChars ls' :=
  List.flatMap_append

theorem map_char_flatEntries (ls : List Landmark) :
    (flatEntries ls).map Entry.char = flatChars ls := by
  induction ls with
  | nil => rfl
  | cons x ls ih => rw [flatEntries_cons, List.map_append, map_char_entries, ih, flatChars_cons]

theorem length_flatEntries (ls : List Landmark) :
    (flatEntries ls).length = (flatChars ls).length := by
  rw [← map_char_flatEntries, List.length_map]

@[simp] theorem flatChars_partOf (n : NodeId) (path : List Crumb) (content : List Char) :
    flatChars (partOf n path content) = content := by
  unfold partOf
  split
  · next h => rw [h]; rfl
  · simp [Sign.chars]

/-! ## The map -/

section Place

variable {u v : List Landmark} {x : Landmark} {a n : Nat} {i : Isolation}

/-- The characters of the text in which the stretch begins. -/
theorem mapIdx_place_target (htarget : i.target = x.node)
    (hstart : i.start = (flatEntries u).length + a)
    (hstop : i.stop = (flatEntries u).length + a + n)
    (hcut : i.cut = a + n ∨ x.sign.chars.length ≤ a + n) :
    (x.entries.mapIdx fun j e => i.place (j + (flatEntries u).length) e) =
      entriesOf i.front (x.sign.chars.take a) ++
        (entriesOf x.node ((x.sign.chars.drop a).take n) ++
          entriesOf i.back (x.sign.chars.drop (a + n))) := by
  refine List.ext_getElem (by simp [entriesOf]; omega) fun j h₁ h₂ => ?_
  have hj : j < x.sign.chars.length := by simpa using h₁
  have hj' : j < x.entries.length := by simpa using hj
  have hchar : x.entries[j] = ⟨x.sign.chars[j], x.node, j⟩ := by
    simp [Landmark.entries, entriesOf]
  rw [List.getElem_mapIdx, hchar, Isolation.place, hstart, hstop, htarget, List.getElem_append]
  by_cases hja : j < a
  · rw [if_neg (by omega), if_pos rfl, if_pos (by omega), dif_pos (by simp [entriesOf]; omega)]
    simp [entriesOf]
  · rw [dif_neg (by simp [entriesOf]; omega), List.getElem_append]
    have hlen : (entriesOf i.front (x.sign.chars.take a)).length = a := by
      simp [entriesOf]
      omega
    by_cases hjn : j < a + n
    · rw [if_pos (by omega), dif_pos (by rw [hlen]; simp [entriesOf]; omega)]
      simp only [hlen]
      simp only [entriesOf, List.getElem_mapIdx, List.getElem_take, List.getElem_drop]
      congr 1
      · congr 1
        omega
      · omega
    · have hmid : (entriesOf x.node ((x.sign.chars.drop a).take n)).length = n := by
        simp [entriesOf]
        omega
      rw [if_neg (by omega), if_pos rfl, if_neg (by omega), dif_neg (by rw [hlen, hmid]; omega)]
      simp only [hlen, hmid]
      simp only [entriesOf, List.getElem_mapIdx, List.getElem_drop]
      congr 1
      · congr 1
        omega
      · omega

/-- Where the characters of a chart are after a stretch of them was isolated. -/
theorem mapIdx_place (hnd : ((u ++ x :: v).map Landmark.node).Nodup) (ha : a < x.sign.chars.length)
    (htarget : i.target = x.node) (hstart : i.start = (flatEntries u).length + a)
    (hstop : i.stop = (flatEntries u).length + a + n)
    (hcut : i.cut = a + n ∨ x.sign.chars.length ≤ a + n)
    (htaken : ∀ p ∈ consumed (n - (x.sign.chars.length - a)) v, i.taken p.1 = p.2)
    (hzero : ∀ m, m ∉ (consumed (n - (x.sign.chars.length - a)) v).map Prod.fst → i.taken m = 0) :
    (flatEntries (u ++ x :: v)).mapIdx i.place =
      flatEntries u ++ (entriesOf i.front (x.sign.chars.take a) ++
        (entriesOf x.node (((flatChars (x :: v)).drop a).take n) ++
          (entriesOf i.back (x.sign.chars.drop (a + n)) ++
            flatEntries (shorten (n - (x.sign.chars.length - a)) v)))) := by
  rw [List.map_append, List.map_cons, List.nodup_append, List.nodup_cons] at hnd
  obtain ⟨-, ⟨hxv, hv⟩, hu⟩ := hnd
  have hbefore : (flatEntries u).mapIdx i.place = flatEntries u := by
    refine List.ext_getElem (by simp) fun j h₁ h₂ => ?_
    obtain ⟨y, hy, hnode⟩ := exists_of_mem_flatEntries (List.getElem_mem h₂)
    have hyu : y.node ∈ u.map Landmark.node := List.mem_map_of_mem hy
    have htake : i.taken (flatEntries u)[j].node = 0 := by
      refine hzero _ fun hmem => ?_
      obtain ⟨p, hp, hpe⟩ := List.mem_map.mp hmem
      obtain ⟨z, hz, hpz⟩ := mem_consumed hp
      exact hu _ hyu _ (List.mem_cons_of_mem _ (List.mem_map_of_mem hz))
        (hnode.symm.trans (hpe.symm.trans hpz))
    have hne : (flatEntries u)[j].node ≠ i.target := by
      rw [hnode, htarget]
      exact hu _ hyu _ (List.mem_cons_self ..)
    rw [List.getElem_mapIdx, Isolation.place, if_neg (by omega), if_neg hne, htake]
    simp
  have hbehind : ((flatEntries v).mapIdx fun j e =>
      i.place (j + x.entries.length + (flatEntries u).length) e) =
      (((flatEntries v).take (n - (x.sign.chars.length - a))).mapIdx fun j e =>
        ⟨e.char, x.node, j + (x.sign.chars.length - a)⟩) ++
        flatEntries (shorten (n - (x.sign.chars.length - a)) v) := by
    rw [← mapIdx_flatEntries hv htaken fun y _ hy => hzero _ hy]
    refine List.mapIdx_eq_mapIdx_iff.mpr fun j hj => ?_
    obtain ⟨y, hy, hnode⟩ := exists_of_mem_flatEntries (List.getElem_mem hj)
    have hne : (flatEntries v)[j].node ≠ i.target := by
      rw [hnode, htarget]
      exact fun he => hxv (he ▸ List.mem_map_of_mem hy)
    rw [Isolation.place, hstart, hstop, length_entries, htarget]
    by_cases hjk : j < n - (x.sign.chars.length - a)
    · rw [if_pos (by omega), if_pos hjk]
      congr 1
      omega
    · rw [if_neg (by omega), if_neg (htarget ▸ hne), if_neg hjk]
  have hchars : ((flatChars (x :: v)).drop a).take n =
      (x.sign.chars.drop a).take n ++ (flatChars v).take (n - (x.sign.chars.length - a)) := by
    rw [flatChars_cons, List.drop_append_of_le_length (by omega), List.take_append, List.length_drop]
  rw [flatEntries_append, flatEntries_cons, List.mapIdx_append, hbefore, List.mapIdx_append, hbehind,
    mapIdx_place_target htarget hstart hstop hcut, hchars, entriesOf_append]
  have hmoved : (((flatEntries v).take (n - (x.sign.chars.length - a))).mapIdx fun j e =>
      (⟨e.char, x.node, j + (x.sign.chars.length - a)⟩ : Entry)) =
      ((flatChars v).take (n - (x.sign.chars.length - a))).mapIdx fun j c =>
        ⟨c, x.node, j + ((x.sign.chars.drop a).take n).length⟩ := by
    rw [← map_char_flatEntries, ← List.map_take]
    refine List.ext_getElem (by simp) fun j h₁ h₂ => ?_
    simp only [List.length_mapIdx, List.length_take] at h₁
    simp only [List.getElem_mapIdx, List.getElem_map, List.length_take, List.length_drop]
    congr 1
    omega
  rw [hmoved]
  -- Either nothing is left of the text in which the stretch begins, or the stretch ends there.
  by_cases hend : x.sign.chars.length ≤ a + n
  · rw [List.drop_eq_nil_of_le hend]
    simp [entriesOf]
  · rw [show n - (x.sign.chars.length - a) = 0 by omega]
    simp

end Place

/-! ## The chart -/

section Isolate

variable {P : Document → List Landmark → Prop} {d : Document} {u v : List Landmark} {x : Landmark}
  {marks : List String} {s : String}

/-- Putting a text in front of another one, unless it is empty. -/
theorem Isolable.insertPart_before (hP : Isolable P) (h : P d (u ++ x :: v)) (content : List Char) :
    P (insertPart Document.insertBefore d x.node content).2
      (u ++ (partOf (insertPart Document.insertBefore d x.node content).1 x.path content ++ x :: v)) := by
  unfold insertPart partOf
  by_cases hc : content = []
  · simpa [hc] using h
  · simpa [hc] using hP.insertBefore h (String.ofList content)

/-- Putting a text behind another one, unless it is empty. -/
theorem Isolable.insertPart_after (hP : Isolable P) (h : P d (u ++ x :: v)) (content : List Char) :
    P (insertPart Document.insertAfter d x.node content).2
      (u ++ x :: (partOf (insertPart Document.insertAfter d x.node content).1 x.path content ++ v)) := by
  unfold insertPart partOf
  by_cases hc : content = []
  · simpa [hc] using h
  · simpa [hc] using hP.insertAfter h (String.ofList content)

/-- The entries from a place in a text on. -/
theorem take_drop_flatEntries {a n : Nat} (ha : a < x.sign.chars.length) :
    ((flatEntries (u ++ x :: v)).drop ((flatEntries u).length + a)).take n =
      (x.entries.drop a).take n ++ (flatEntries v).take (n - (x.sign.chars.length - a)) := by
  rw [flatEntries_append, flatEntries_cons, List.drop_append, List.drop_eq_nil_of_le (by omega),
    List.nil_append, Nat.add_sub_cancel_left, List.drop_append_of_le_length (by rw [length_entries]; omega),
    List.take_append, List.length_drop, length_entries]

/-- The end of a stretch in the text in which it begins. -/
theorem cut_eq {a n : Nat} (ha : a < x.sign.chars.length) (hn : 0 < n) {rest : List Entry}
    (hrest : ∀ e ∈ rest, e.node ≠ x.node) :
    (((((x.entries.drop a).take n) ++ rest).filter (·.node == x.node)).map (·.offset + 1)).getLastD 0 =
      min (a + n) x.sign.chars.length := by
  have h₁ : ((x.entries.drop a).take n).filter (·.node == x.node) = (x.entries.drop a).take n := by
    rw [List.filter_eq_self]
    intro e he
    simp [node_eq_of_mem_entries (List.mem_of_mem_drop (List.mem_of_mem_take he))]
  have h₂ : rest.filter (·.node == x.node) = [] := by
    rw [List.filter_eq_nil_iff]
    intro e he
    simpa using hrest e he
  have hlen : ((x.entries.drop a).take n).length = min n (x.sign.chars.length - a) := by simp
  rw [List.filter_append, h₁, h₂, List.append_nil, List.getLastD_eq_getLast?, List.getLast?_eq_getElem?,
    List.length_map, hlen, List.getElem?_map, List.getElem?_take_of_lt (by omega), List.getElem?_drop,
    Landmark.entries, entriesOf, List.getElem?_mapIdx, List.getElem?_eq_getElem (by omega)]
  simp only [Option.map_some, Option.getD_some]
  omega

/-- Writing the isolated text, what was before and after it, and what is left of the texts behind. -/
theorem Isolable.isolated (hP : Isolable P) (h : P d (u ++ x :: v)) (hx : x.sign = .text marks s)
    (content front back : List Char) (name : String) {k : Nat} (taken : NodeId → Nat)
    (htaken : ∀ p ∈ consumed k v, taken p.1 = p.2) :
    let marked := (d.writeText x.node (String.ofList content)).setAttribute x.node
      Word.markAttribute name
    let before := insertPart Document.insertBefore marked x.node front
    let after := insertPart Document.insertAfter before.2 x.node back
    let cleared := ((consumed k v).map Prod.fst).foldl (fun d n => FlatText.dropFront d n (taken n)) after.2
    P cleared (u ++ (partOf before.1 x.path front ++
      ⟨x.node, .text (name :: marks.tail) (String.ofList content), x.path⟩ ::
        (partOf after.1 x.path back ++ shorten k v))) := by
  intro marked before after cleared
  have h₁ := hP.writeMarked h hx (String.ofList content) name
  have h₂ := hP.insertPart_before h₁ front
  rw [← List.append_assoc] at h₂
  have h₃ := hP.insertPart_after h₂ back
  have hsplit : u ++ partOf before.1 x.path front ++
      ⟨x.node, .text (name :: marks.tail) (String.ofList content), x.path⟩ ::
        (partOf after.1 x.path back ++ v) =
      (u ++ (partOf before.1 x.path front ++
        ⟨x.node, .text (name :: marks.tail) (String.ofList content), x.path⟩ ::
          partOf after.1 x.path back)) ++ v := by
    simp
  rw [show _ = _ from hsplit] at h₃
  simpa using hP.foldl_dropFront h₃ htaken

/-- The stretch of characters from a place in `x` on begins with one of `x`. -/
theorem exists_stretch_eq_cons {a n : Nat} (rest : List Entry) (ha : a < x.sign.chars.length)
    (hn : 0 < n) :
    ∃ rest', (x.entries.drop a).take n ++ rest = (⟨x.sign.chars[a], x.node, a⟩ : Entry) :: rest' := by
  obtain ⟨m, rfl⟩ : ∃ m, n = m + 1 := ⟨_, (Nat.succ_pred (by omega)).symm⟩
  have ha' : a < x.entries.length := by rwa [length_entries]
  have hfirst : x.entries[a] = ⟨x.sign.chars[a], x.node, a⟩ := by
    simp [Landmark.entries, entriesOf]
  rw [List.drop_eq_getElem_cons ha', hfirst, List.take_succ_cons,
    List.cons_append]
  exact ⟨_, rfl⟩

/-- The texts that a stretch of characters takes from, behind the one in which it begins. -/
theorem stretch_others {a n k : Nat} (hxv : x.node ∉ v.map Landmark.node)
    (hv : (v.map Landmark.node).Nodup) :
    ((((x.entries.drop a).take n ++ (flatEntries v).take k).map Entry.node).filter
        (· != x.node)).eraseDups = (consumed k v).map Prod.fst ∧
      (∀ p ∈ consumed k v,
        ((x.entries.drop a).take n ++ (flatEntries v).take k).countP (·.node == p.1) = p.2) ∧
      ∀ e ∈ (flatEntries v).take k, e.node ≠ x.node := by
  have hbehind : ∀ e ∈ (flatEntries v).take k, e.node ≠ x.node := by
    intro e he hnode
    obtain ⟨y, hy, hey⟩ := exists_of_mem_flatEntries (List.mem_of_mem_take he)
    exact hxv (hnode ▸ hey ▸ List.mem_map_of_mem hy)
  have hin : ∀ e ∈ (x.entries.drop a).take n, e.node = x.node := fun e he =>
    node_eq_of_mem_entries (List.mem_of_mem_drop (List.mem_of_mem_take he))
  refine ⟨?_, fun p hp => ?_, hbehind⟩
  · rw [← eraseDups_nodes hv, List.map_append, List.filter_append]
    congr 1
    rw [List.filter_eq_nil_iff.mpr, List.nil_append, List.filter_eq_self]
    · intro m hm
      obtain ⟨e, he, rfl⟩ := List.mem_map.mp hm
      simpa using hbehind e he
    · intro m hm
      obtain ⟨e, he, rfl⟩ := List.mem_map.mp hm
      simp [hin e he]
  · obtain ⟨y, hy, hpy⟩ := mem_consumed hp
    rw [List.countP_append, (countP_node hv _).1 p hp, Nat.add_eq_right, List.countP_eq_zero]
    intro e he hnode
    rw [hin e he, beq_iff_eq, hpy] at hnode
    exact hxv (hnode ▸ List.mem_map_of_mem hy)

/-- Isolating a stretch of characters that begins in the text `x`. -/
theorem Isolable.isolate_spec (hP : Isolable P) {t : FlatText} {a n : Nat} (h : P d (u ++ x :: v))
    (ht : t.entries = flatEntries (u ++ x :: v)) (hx : x.sign = .text marks s)
    (ha : a < s.toList.length) (hn : 0 < n) (hsize : (flatChars u).length + a + n ≤ t.size)
    (kind : Directive.Kind) :
    ∃ t' d' front back, t.isolate d ((flatChars u).length + a) ((flatChars u).length + a + n) kind =
        some (x.node, t', d') ∧
      P d' (u ++ (partOf front x.path (s.toList.take a) ++
        ⟨x.node, .text (kind.name :: marks.tail)
          (String.ofList (((flatChars (x :: v)).drop a).take n)), x.path⟩ ::
          (partOf back x.path (s.toList.drop (a + n)) ++
            shorten (n - (s.toList.length - a)) v))) ∧
      t'.entries = flatEntries (u ++ (partOf front x.path (s.toList.take a) ++
        ⟨x.node, .text (kind.name :: marks.tail)
          (String.ofList (((flatChars (x :: v)).drop a).take n)), x.path⟩ ::
          (partOf back x.path (s.toList.drop (a + n)) ++
            shorten (n - (s.toList.length - a)) v))) := by
  have hchars : x.sign.chars = s.toList := by rw [hx]; rfl
  have hnd := hP.nodup h
  have hnd' := hnd
  rw [List.map_append, List.map_cons, List.nodup_append, List.nodup_cons] at hnd'
  obtain ⟨-, ⟨hxv, hv⟩, -⟩ := hnd'
  rw [← hchars] at ha ⊢
  rw [← length_flatEntries] at hsize ⊢
  have hcovered : (t.entries.drop ((flatEntries u).length + a)).take n =
      (x.entries.drop a).take n ++ (flatEntries v).take (n - (x.sign.chars.length - a)) := by
    rw [ht]
    exact take_drop_flatEntries ha
  obtain ⟨hothers, hconsumed, hbehind⟩ := stretch_others hxv hv
    (a := a) (n := n) (k := n - (x.sign.chars.length - a))
  have hcontent : ((x.entries.drop a).take n ++
      (flatEntries v).take (n - (x.sign.chars.length - a))).map Entry.char =
      ((flatChars (x :: v)).drop a).take n := by
    rw [List.map_append, List.map_take, List.map_take, List.map_drop, map_char_entries,
      map_char_flatEntries, flatChars_cons, List.drop_append_of_le_length (by omega),
      List.take_append, List.length_drop]
  have hinner : (d.innerText x.node).toList = x.sign.chars := by
    rw [hP.innerText_eq h hx, hchars]
  have hcut := cut_eq ha hn hbehind
  have hdrop : x.sign.chars.drop (min (a + n) x.sign.chars.length) = x.sign.chars.drop (a + n) := by
    rcases Nat.le_total (a + n) x.sign.chars.length with hle | hle
    · rw [Nat.min_eq_left hle]
    · rw [Nat.min_eq_right hle, List.drop_eq_nil_of_le (Nat.le_refl _), List.drop_eq_nil_of_le hle]
  obtain ⟨rest, hrest⟩ := exists_stretch_eq_cons ((flatEntries v).take _) ha hn
  have h' := hP.isolated h hx (((flatChars (x :: v)).drop a).take n)
    (x.sign.chars.take a) (x.sign.chars.drop (a + n)) kind.name (fun m => ((x.entries.drop a).take n ++
      (flatEntries v).take (n - (x.sign.chars.length - a))).countP (·.node == m)) hconsumed
  unfold FlatText.isolate
  rw [show (flatEntries u).length + a + n - ((flatEntries u).length + a) = n by omega, hcovered, hrest]
  simp only
  rw [if_neg (by omega), hinner, ← hrest, hcut, hothers, hcontent, hdrop]
  refine ⟨_, _, _, _, rfl, h', ?_⟩
  rw [ht]
  rw [mapIdx_place (n := n) (a := a) hnd ha rfl rfl rfl]
  · simp [Landmark.entries, Sign.chars]
  · show min (a + n) x.sign.chars.length = a + n ∨ x.sign.chars.length ≤ a + n
    omega
  · intro p hp
    have hmem : p.1 ∈ (consumed (n - (x.sign.chars.length - a)) v).map Prod.fst :=
      List.mem_map_of_mem hp
    simp only [List.contains_iff_mem, hmem, if_true]
    exact hconsumed p hp
  · intro m hm
    simp only [List.contains_iff_mem, hm, if_false]

end Isolate

end WordTemplate
