import WordTemplate.Proofs.Processing.Building
import WordTemplate.Proofs.Word.Listing

/-!
# The map of a flattened text

However often stretches of a flattened text are isolated, in whatever order, the map from characters to
places is that of the document as it is then, and the text stays the same. The element of an isolated stretch
keeps its content as long as only other characters are isolated.

* `Mapped.isolate`: isolating one stretch.
* `Mapped.isolateAll`: isolating one after another.
* `isolate_keeps_map`: what is known of every call.
* `isolate_loses_hidden_text`: an empty text node is not kept for the texts below it.
-/

namespace WordTemplate

open Xml Forest FlatText

namespace FlatText

/-- A call that isolates a stretch of characters. -/
structure Request where
  start : Nat
  stop : Nat
  kind : Directive.Kind
  deriving DecidableEq, Repr

/-- The flattened text and the document after a call. If it has no result, they stay as they are. -/
def next (state : FlatText × Document) (r : Request) : FlatText × Document :=
  (state.1.isolate state.2 r.start r.stop r.kind).elim state Prod.snd

/-- The flattened text and the document after all these calls. -/
def after (state : FlatText × Document) (rs : List Request) : FlatText × Document :=
  rs.foldl next state

/-- Whether two stretches have no character in common. -/
def Request.Apart (r r' : Request) : Prop :=
  ∀ k, ¬ ((r.start ≤ k ∧ k < r.stop) ∧ r'.start ≤ k ∧ k < r'.stop)

/-- How the map changes when a stretch is isolated in `target`. -/
def isolation (t : FlatText) (r : Request) (target front back : NodeId) : Isolation :=
  let covered := (t.entries.drop r.start).take (r.stop - r.start)
  { start := r.start, stop := r.stop, target, front, back
    cut := ((covered.filter (·.node == target)).map (·.offset + 1)).getLastD 0
    taken := fun n => if n = target then 0 else covered.countP (·.node == n) }

/-- Whether no more is taken off the offset of a character than there is. -/
structure Isolation.Fits (i : Isolation) (es : List Entry) : Prop where
  cut_le : ∀ (position : Nat) e, es[position]? = some e → i.stop ≤ position → e.node = i.target →
    i.cut ≤ e.offset
  taken_le : ∀ (position : Nat) e, es[position]? = some e → ¬ (i.start ≤ position ∧ position < i.stop) →
    e.node ≠ i.target → i.taken e.node ≤ e.offset

variable {t t' : FlatText} {d d' : Document} {n : NodeId} {r : Request}

/-- There is no result for an empty stretch, or one that goes beyond the text. -/
theorem isolate_eq_none (h : r.stop ≤ r.start ∨ t.size < r.stop) :
    t.isolate d r.start r.stop r.kind = none := by
  unfold isolate
  dsimp only
  split
  · rfl
  · next hcovered =>
    rcases h with h | h
    · rw [Nat.sub_eq_zero_of_le h, List.take_zero] at hcovered
      cases hcovered
    · rw [if_pos h]

/-- Texts that are not covered lose nothing. -/
theorem taken_eq (covered : List Entry) (target : NodeId) :
    (fun n => if ((covered.map Entry.node).filter (· != target)).eraseDups.contains n then
      covered.countP (·.node == n) else 0) =
      fun n => if n = target then 0 else covered.countP (·.node == n) := by
  funext n
  have hiff : ((covered.map Entry.node).filter (· != target)).eraseDups.contains n = true ↔
      (∃ e ∈ covered, e.node = n) ∧ n ≠ target := by
    rw [List.contains_iff_mem, List.mem_eraseDups, List.mem_filter, List.mem_map]
    simp
  by_cases hn : n = target
  · rw [if_neg fun h => (hiff.mp h).2 hn, if_pos hn]
  · rw [if_neg hn]
    split
    · rfl
    · next h =>
      symm
      rw [List.countP_eq_zero]
      exact fun e he heq => h (hiff.mpr ⟨⟨e, he, by simpa using heq⟩, hn⟩)

/-- The map changes as `isolation` says. -/
theorem entries_of_isolate (h : t.isolate d r.start r.stop r.kind = some (n, t', d')) :
    ∃ front back, t'.entries = t.entries.mapIdx (t.isolation r n front back).place := by
  unfold isolate at h
  dsimp only at h
  split at h
  · cases h
  split at h
  · cases h
  simp only [taken_eq, Option.some.injEq, Prod.mk.injEq] at h
  obtain ⟨rfl, rfl, -⟩ := h
  exact ⟨_, _, rfl⟩

end FlatText

/-! ## The list after a stretch was isolated -/

section Lists

variable {u v ls ls' f g : List Landmark} {x y : Landmark} {a n k b : Nat}

theorem shorten_append (k : Nat) (ls ls' : List Landmark) :
    shorten k (ls ++ ls') = shorten k ls ++ shorten (k - (flatChars ls).length) ls' := by
  induction ls generalizing k with
  | nil => simp [shorten]
  | cons x ls ih =>
    rw [List.cons_append, shorten, shorten, ih, List.append_assoc, flatChars_cons, List.length_append,
      Nat.sub_add_eq]

/-- The parts of a text and of what is behind it, after a stretch was moved. -/
theorem take_append_stretch {xs vs : List Char} (ha : a < xs.length) :
    xs.take a ++ (((xs ++ vs).drop a).take n ++ (xs.drop (a + n) ++ vs.drop (n - (xs.length - a)))) = xs ++ vs := by
  rw [List.drop_append_of_le_length (by omega), List.take_append, List.length_drop]
  have hxs : xs.take a ++ ((xs.drop a).take n ++ xs.drop (a + n)) = xs := by
    rw [← List.drop_drop, List.take_append_drop, List.take_append_drop]
  rcases Nat.le_total (xs.length - a) n with hle | hle
  · have hnone : xs.drop (a + n) = [] := List.drop_eq_nil_of_le (by omega)
    rw [hnone, List.append_nil] at hxs
    rw [hnone, List.nil_append, List.append_assoc, List.take_append_drop, ← List.append_assoc, hxs]
  · rw [show n - (xs.length - a) = 0 by omega, List.take_zero, List.append_nil, List.drop_zero,
      ← List.append_assoc, ← List.append_assoc, List.append_assoc (xs.take a), hxs]

/-- The list `u ++ x :: v` after `n` characters have been isolated from place `a` of `x` on: `f` has what was
before them in `x`, `g` what was after them, and `y` the characters. -/
structure Isolates (u : List Landmark) (x : Landmark) (v : List Landmark) (a n : Nat) (f : List Landmark)
    (y : Landmark) (g : List Landmark) : Prop where
  lt_length : a < x.sign.chars.length
  pos : 0 < n
  le_length : a + n ≤ (flatChars (x :: v)).length
  front_eq : flatChars f = x.sign.chars.take a
  chars_eq : y.sign.chars = ((flatChars (x :: v)).drop a).take n
  back_eq : flatChars g = x.sign.chars.drop (a + n)

/-- How many characters are taken from the texts behind. -/
def behind (x : Landmark) (a n : Nat) : Nat :=
  n - (x.sign.chars.length - a)

/-- The text is the same. -/
theorem Isolates.flatChars_eq (h : Isolates u x v a n f y g) :
    flatChars (u ++ (f ++ y :: (g ++ shorten (behind x a n) v))) = flatChars (u ++ x :: v) := by
  rw [flatChars_append, flatChars_append, flatChars_cons, flatChars_append, flatChars_shorten, h.front_eq,
    h.chars_eq, h.back_eq, flatChars_append, flatChars_cons, behind, take_append_stretch h.lt_length]

/-- Whether the text `m` holds `content`, with `b` characters before it. -/
def Carries (ls : List Landmark) (m : NodeId) (b : Nat) (content : List Char) : Prop :=
  ∃ p y q, ls = p ++ y :: q ∧ y.node = m ∧ (∃ marks, y.sign = .text marks (String.ofList content)) ∧
    (flatChars p).length = b

/-- The new text holds the characters. -/
theorem Isolates.holds_stretch {m : NodeId} {content : List Char} {marks : List String} (h : Isolates u x v a n f y g)
    (hm : y.node = m) (hy : y.sign = .text marks (String.ofList content)) :
    Carries (u ++ (f ++ y :: (g ++ shorten (behind x a n) v))) m ((flatChars u).length + a) content := by
  refine ⟨u ++ f, y, _, (List.append_assoc ..).symm, hm, ⟨marks, hy⟩, ?_⟩
  have := h.lt_length
  rw [flatChars_append, List.length_append, h.front_eq, List.length_take, Nat.min_eq_left (by omega)]

/-- A text keeps its content when other characters are isolated. -/
theorem Isolates.holds {m : NodeId} {content : List Char} (h : Isolates u x v a n f y g)
    (hholds : Carries (u ++ x :: v) m b content)
    (hapart : (flatChars u).length + a + n ≤ b ∨ b + content.length ≤ (flatChars u).length + a) :
    Carries (u ++ (f ++ y :: (g ++ shorten (behind x a n) v))) m b content := by
  obtain ⟨p, z, q, hsplit, hz, hsign, hp⟩ := hholds
  have hlength : z.sign.chars.length = content.length := by
    obtain ⟨marks, hsign⟩ := hsign
    rw [hsign, Sign.chars, String.toList_ofList]
  have ha := h.lt_length
  have hn := h.pos
  rcases List.append_eq_append_iff.mp hsplit with ⟨t, rfl, ht⟩ | ⟨t, rfl, ht⟩
  · rw [flatChars_append, List.length_append] at hp
    cases t with
    | nil =>
      obtain ⟨rfl, -⟩ := List.cons.inj ht
      simp only [flatChars_nil, List.length_nil] at hp
      omega
    | cons x' t =>
      -- The text is behind the one in which the stretch begins, and behind the stretch.
      obtain ⟨rfl, hv⟩ := List.cons.inj ht
      obtain rfl : v = t ++ z :: q := hv
      rw [flatChars_cons, List.length_append] at hp
      have hk : behind x a n ≤ (flatChars t).length := by
        rw [behind]
        omega
      refine ⟨u ++ (f ++ y :: (g ++ shorten (behind x a n) t)), z, q, ?_, hz, hsign, ?_⟩
      · rw [shorten_append, Nat.sub_eq_zero_of_le hk, shorten_zero]
        simp
      · have hle := h.le_length
        rw [flatChars_append, flatChars_append, flatChars_cons, flatChars_append, flatChars_shorten, h.front_eq,
          h.chars_eq, h.back_eq]
        simp only [List.length_append, List.length_take, List.length_drop]
        rw [behind]
        omega
  · cases t with
    | nil =>
      obtain ⟨rfl, -⟩ := List.cons.inj ht
      rw [List.append_nil] at hapart
      omega
    | cons z' t =>
      obtain ⟨rfl, rfl⟩ := List.cons.inj ht
      exact ⟨p, z, t ++ (f ++ y :: (g ++ shorten (behind x a n) v)), by simp, hz, hsign, hp⟩

end Lists

/-! ## Isolating stretches in a scope -/

section Scope

variable {root n : NodeId} {t : FlatText} {d : Document} {r r' : Request} {ls u v : List Landmark} {x : Landmark}
  {a : Nat}

theorem FlatText.Request.Apart.le (h : r.Apart r') (hr : r.start < r.stop) (hr' : r'.start < r'.stop) :
    r'.stop ≤ r.start ∨ r.stop ≤ r'.start := by
  have := h (max r.start r'.start)
  omega

/-- Whether the map of a flattened text is that of the texts `ls` of the scope. -/
structure Mapped (root : NodeId) (state : FlatText × Document) (ls : List Landmark) : Prop where
  listed : Listed state.2 root ls
  entries_eq : state.1.entries = flatEntries ls

/-- The map of a flattened text is exact. -/
theorem Mapped.eq_ofDocument (h : Mapped root (t, d) ls) : t = FlatText.ofDocument d root := by
  cases t with
  | mk entries =>
    obtain rfl : entries = _ := h.entries_eq
    rw [← h.listed.ofDocument_eq]

theorem Mapped.text_eq (h : Mapped root (t, d) ls) : t.text = String.ofList (flatChars ls) := by
  rw [FlatText.text, h.entries_eq, map_char_flatEntries]

theorem Mapped.size_eq (h : Mapped root (t, d) ls) : t.size = (flatChars ls).length := by
  rw [FlatText.size, h.entries_eq, length_flatEntries]

/-- Isolating a stretch takes no more off an offset than there is. -/
theorem Mapped.fits (h : Mapped root (t, d) (u ++ x :: v)) (hr : r.start < r.stop)
    (hstart : r.start = (flatChars u).length + a) (ha : a < x.sign.chars.length) (front back : NodeId) :
    (t.isolation r x.node front back).Fits t.entries := by
  have hasc : t.entries.Pairwise fun e e' => e.node = e'.node → e.offset < e'.offset :=
    h.eq_ofDocument ▸ (legible_ofDocument h.listed.wellFormed).ascending
  have hbehind : ∀ (position : Nat) e, t.entries[position]? = some e → r.stop ≤ position →
      ((t.entries.drop r.start).take (r.stop - r.start) ++ [e]).Sublist t.entries := by
    intro position e he hle
    refine List.Sublist.trans ?_ (List.drop_sublist r.start t.entries)
    conv_rhs => rw [← List.take_append_drop (r.stop - r.start) (t.entries.drop r.start)]
    refine (List.Sublist.refl _).append (List.singleton_sublist.mpr ?_)
    rw [List.drop_drop, Nat.add_sub_cancel' (Nat.le_of_lt hr)]
    exact List.mem_of_getElem? (i := position - r.stop) (by rwa [List.getElem?_drop, Nat.add_sub_cancel' hle])
  refine ⟨fun position e he hle hnode => cut_le_offset (hasc.sublist (hbehind position e he hle)) hnode,
    fun position e he hnot hne => ?_⟩
  have hne : e.node ≠ x.node := hne
  show (if e.node = x.node then 0 else _) ≤ e.offset
  rw [if_neg hne]
  rcases Nat.lt_or_ge position r.start with hlt | hge
  · -- The texts in front of the one in which the stretch begins lose nothing.
    rw [h.entries_eq] at he ⊢
    have hmem : e ∈ flatEntries u := by
      rw [← length_flatEntries] at hstart
      rw [flatEntries_append, flatEntries_cons, ← List.append_assoc, List.getElem?_append_left
        (by rw [List.length_append, length_entries]; omega)] at he
      refine (List.mem_append.mp (List.mem_of_getElem? he)).resolve_right fun hx => hne (node_eq_of_mem_entries hx)
    obtain ⟨y, hy, hey⟩ := exists_of_mem_flatEntries hmem
    have hnd := h.listed.nodup
    rw [List.map_append, List.map_cons, List.nodup_append] at hnd
    rw [List.countP_eq_zero.mpr]
    · exact Nat.zero_le _
    intro e' he' hnode
    rw [hstart, ← length_flatEntries, take_drop_flatEntries ha, List.mem_append] at he'
    have hin : e'.node ∈ x.node :: v.map Landmark.node := by
      rcases he' with he' | he'
      · exact List.mem_cons.mpr (.inl (node_eq_of_mem_entries (List.mem_of_mem_drop (List.mem_of_mem_take he'))))
      · obtain ⟨z, hz, hez⟩ := exists_of_mem_flatEntries (List.mem_of_mem_take he')
        exact List.mem_cons_of_mem _ (hez ▸ List.mem_map_of_mem hz)
    have hnode : e'.node = e.node := by simpa using hnode
    exact hnd.2.2 y.node (List.mem_map_of_mem hy) e'.node hin (hey.symm.trans hnode.symm)
  · have hle : r.stop ≤ position := Nat.le_of_not_lt fun hlt => hnot ⟨hge, hlt⟩
    exact countP_le_offset (hasc.sublist (hbehind position e he hle)) rfl

/-- What isolating a stretch of a scope does. -/
theorem Mapped.isolate (h : Mapped root (t, d) ls) (hr : r.start < r.stop) (hle : r.stop ≤ t.size) :
    ∃ u x v a f y g t' d' marks, ls = u ++ x :: v ∧ r.start = (flatChars u).length + a ∧
      Isolates u x v a (r.stop - r.start) f y g ∧ t.isolate d r.start r.stop r.kind = some (x.node, t', d') ∧
      Mapped root (t', d') (u ++ (f ++ y :: (g ++ shorten (behind x a (r.stop - r.start)) v))) ∧
      y.node = x.node ∧ y.sign = .text (r.kind.name :: marks)
        (String.ofList (((flatChars ls).drop r.start).take (r.stop - r.start))) := by
  have hsize := h.size_eq
  obtain ⟨u, x, v, a, rfl, hstart, ha⟩ := exists_text_at (show r.start < (flatChars ls).length by omega)
  obtain ⟨marks, s, hx⟩ : ∃ marks s, x.sign = .text marks s := by
    obtain ⟨_, _, _, b, bs, _, hat⟩ := h.listed.exists_textAt
    exact ⟨b.label.marks, innerText (labels bs), by rw [hat.eq]⟩
  have hchars : x.sign.chars = s.toList := by rw [hx, Sign.chars]
  rw [flatChars_append, List.length_append] at hsize
  obtain ⟨t', d', front, back, hrun, hlisted, hentries⟩ := isolable_listed.isolate_spec h.listed h.entries_eq hx
    (hchars ▸ ha) (show 0 < r.stop - r.start by omega)
    (show (flatChars u).length + a + (r.stop - r.start) ≤ t.size by omega) r.kind
  rw [show (flatChars u).length + a + (r.stop - r.start) = r.stop by omega, ← hstart] at hrun
  rw [← hchars] at hlisted hentries
  refine ⟨u, x, v, a, _, _, _, t', d', marks.tail, rfl, hstart,
    ⟨ha, by omega, by omega, flatChars_partOf .., ?_, flatChars_partOf ..⟩, hrun, ⟨hlisted, hentries⟩, rfl,
    ?_⟩
  · rw [Sign.chars, String.toList_ofList]
  · rw [flatChars_append, hstart, List.drop_length_add_append]

/-- One call leaves the map exact, the text as it is, and what other texts hold. -/
theorem Mapped.next (h : Mapped root (t, d) ls) (r : Request) :
    ∃ ls', Mapped root (FlatText.next (t, d) r) ls' ∧ flatChars ls' = flatChars ls ∧
      ∀ (r' : Request) (n : NodeId), r'.Apart r → r'.start < r'.stop → ∀ content : List Char,
        content.length = r'.stop - r'.start → Carries ls n r'.start content → Carries ls' n r'.start content := by
  by_cases hnone : r.stop ≤ r.start ∨ t.size < r.stop
  · rw [FlatText.next, isolate_eq_none hnone]
    exact ⟨ls, h, rfl, fun _ _ _ _ _ _ hholds => hholds⟩
  · rw [not_or, Nat.not_le, Nat.not_lt] at hnone
    obtain ⟨u, x, v, a, f, y, g, t', d', marks, rfl, hstart, hmoves, hrun, hmapped, -⟩ := h.isolate hnone.1 hnone.2
    rw [FlatText.next, hrun]
    refine ⟨_, hmapped, hmoves.flatChars_eq, fun r' n hapart hr' content hlength hholds => ?_⟩
    have := hapart.le hr' hnone.1
    exact hmoves.holds hholds (by omega)

/-- The same of one call after another. -/
theorem Mapped.after (h : Mapped root (t, d) ls) (rs : List Request) :
    ∃ ls', Mapped root (FlatText.after (t, d) rs) ls' ∧ flatChars ls' = flatChars ls ∧
      ∀ (r : Request) (n : NodeId), (∀ r' ∈ rs, r.Apart r') → r.start < r.stop → ∀ content : List Char,
        content.length = r.stop - r.start → Carries ls n r.start content → Carries ls' n r.start content := by
  induction rs generalizing t d ls with
  | nil => exact ⟨ls, h, rfl, fun _ _ _ _ _ _ hholds => hholds⟩
  | cons r' rs ih =>
    obtain ⟨ls₁, h₁, hchars₁, hkeep₁⟩ := h.next r'
    obtain ⟨ls₂, h₂, hchars₂, hkeep₂⟩ := ih h₁
    refine ⟨ls₂, h₂, hchars₂.trans hchars₁, fun r n hapart hr content hlength hholds => ?_⟩
    rw [List.forall_mem_cons] at hapart
    exact hkeep₂ r n hapart.2 hr content hlength (hkeep₁ r n hapart.1 hr content hlength hholds)

/-- What a text of a mapped scope holds. -/
theorem Mapped.innerText_eq (h : Mapped root (t, d) ls) {b : Nat} {content : List Char}
    (hholds : Carries ls n b content) : d.innerText n = String.ofList content := by
  obtain ⟨p, y, q, rfl, rfl, ⟨marks, hy⟩, -⟩ := hholds
  exact h.listed.innerText_eq hy

/-- After any calls that isolate stretches of a scope, also overlapping ones, its text is as before and its map
that of the document as it is then. The next call has no result for an empty stretch, or one beyond the text.
Otherwise it has an element that carries the kind as its mark and holds just the characters of the stretch, then and
after calls for other characters. No more is taken off an offset than there is. -/
theorem isolate_keeps_map (wf : d.WellFormed) (hroot : root ∈ d.ids) (hname : d.isNamed root Word.text = false)
    (hout : TextsOutside Label.isClosed (d.labelsAt root)) (rs : List Request) (r : Request) :
    let fresh := FlatText.ofDocument d root
    let state := FlatText.after (fresh, d) rs
    let content := (fresh.text.toList.drop r.start).take (r.stop - r.start)
    state.1.text = fresh.text ∧ state.1 = FlatText.ofDocument state.2 root ∧
      (r.stop ≤ r.start ∨ fresh.size < r.stop →
        state.1.isolate state.2 r.start r.stop r.kind = none ∧ FlatText.next state r = state) ∧
      (r.start < r.stop → r.stop ≤ fresh.size →
        ∃ n state', state.1.isolate state.2 r.start r.stop r.kind = some (n, state') ∧
          FlatText.next state r = state' ∧ state'.2.attribute? n Word.markAttribute = some r.kind.name ∧
          (∃ front back, state'.1.entries = state.1.entries.mapIdx (state.1.isolation r n front back).place ∧
            (state.1.isolation r n front back).Fits state.1.entries) ∧
          ∀ later, (∀ r' ∈ later, r.Apart r') →
            (FlatText.after state' later).2.innerText n = String.ofList content) := by
  intro fresh state content
  have hfresh : Mapped root (fresh, d) (texts (d.treeAt root)) :=
    ⟨listed_texts wf hroot hname hout, (listed_texts wf hroot hname hout).ofDocument_eq⟩
  obtain ⟨ls, hstate, hchars⟩ : ∃ ls, Mapped root (state.1, state.2) ls ∧
      flatChars ls = flatChars (texts (d.treeAt root)) := by
    obtain ⟨ls, hstate, hchars, -⟩ := hfresh.after rs
    exact ⟨ls, hstate, hchars⟩
  have htext : state.1.text = fresh.text := by rw [hstate.text_eq, hchars, hfresh.text_eq]
  have hsize : state.1.size = fresh.size := by rw [hstate.size_eq, hchars, hfresh.size_eq]
  refine ⟨htext, hstate.eq_ofDocument, fun h => ?_, fun hr hle => ?_⟩
  · have hnone : state.1.isolate state.2 r.start r.stop r.kind = none := isolate_eq_none (hsize ▸ h)
    exact ⟨hnone, by rw [FlatText.next, hnone, Option.elim]⟩
  · obtain ⟨u, x, v, a, f, y, g, t', d', marks, rfl, hstart, hmoves, hrun, hmapped, hnode, hsign⟩ :=
      hstate.isolate hr (hsize ▸ hle)
    have hcontent : content = ((flatChars (u ++ x :: v)).drop r.start).take (r.stop - r.start) := by
      rw [hchars, show content = ((fresh.text.toList.drop r.start).take (r.stop - r.start)) from rfl, hfresh.text_eq,
        String.toList_ofList]
    rw [← hcontent] at hsign
    obtain ⟨front, back, hentries⟩ := entries_of_isolate hrun
    refine ⟨x.node, (t', d'), hrun, by rw [FlatText.next, hrun]; rfl, ?_,
      ⟨front, back, hentries, hstate.fits hr hstart hmoves.lt_length front back⟩, fun later hlater => ?_⟩
    · have hlisted := hmapped.listed
      rw [← List.append_assoc] at hlisted
      rw [← hnode, hlisted.attribute?_mark hsign, List.head?_cons]
    · obtain ⟨ls', hafter, -, hkeep⟩ := hmapped.after later
      have hlength : content.length = r.stop - r.start := by
        have := hstate.size_eq
        rw [hcontent, List.length_take, List.length_drop]
        omega
      exact hafter.innerText_eq (hkeep r x.node hlater hr content hlength (hstart ▸ hmoves.holds_stretch hnode hsign))

end Scope

/-- A paragraph with two runs. -/
def twoRuns : Document :=
  .ofTree ⟨Word.paragraph, []⟩ (Word.runOf "ab" ++ Word.runOf "cd")

/-- After `bc` and `cd` have been isolated, which overlap, `ab` is isolated. -/
theorem isolate_keeps_map_overlapping :
    let state := FlatText.after (FlatText.ofDocument twoRuns twoRuns.root, twoRuns)
      [⟨1, 3, .placeholder⟩, ⟨2, 4, .placeholder⟩]
    state.1.text = "abcd" ∧ state.1 = FlatText.ofDocument state.2 twoRuns.root ∧
      ∃ n state', state.1.isolate state.2 0 2 .inlineKeyword = some (n, state') ∧
        state'.2.attribute? n Word.markAttribute = some Directive.Kind.inlineKeyword.name ∧
        state'.2.innerText n = "ab" := by
  intro state
  obtain ⟨htext, hmap, -, hnext⟩ := isolate_keeps_map (d := twoRuns)
    (Document.wellFormed_ofTree ..) (Document.wellFormed_ofTree ..).root_mem (by decide +kernel)
    (by rw [twoRuns, Document.labelsAt_root_ofTree]; decide +kernel)
    [⟨1, 3, .placeholder⟩, ⟨2, 4, .placeholder⟩] ⟨0, 2, .inlineKeyword⟩
  obtain ⟨n, state', hrun, -, hmark, -, hkeep⟩ := hnext (by decide) (by decide +kernel)
  exact ⟨htext.trans (by decide +kernel), hmap, n, state', hrun, hmark,
    (hkeep [] (by simp)).trans (by decide +kernel)⟩

/-- A paragraph in which the second run has a text below an empty text node. -/
def hiddenText : Document :=
  .ofTree ⟨Word.paragraph, []⟩ (Word.runOf "x" ++
    tree (.element ⟨Word.run, []⟩) (tree (.element ⟨Word.text, []⟩) (tree (.text "y") .nil) ++
      tree (.text "") (tree (.element ⟨Word.text, []⟩) (tree (.text "z") .nil))))

/-- No text is in another one or in formatting, but a text below an empty text node gets lost with its run, and
the map still has it. -/
theorem isolate_loses_hidden_text :
    let top := hiddenText.root
    let state := FlatText.next (FlatText.ofDocument hiddenText top, hiddenText) ⟨0, 2, .placeholder⟩
    hiddenText.WellFormed ∧ hiddenText.isNamed top Word.text = false ∧
      TextsOutside (fun l => l.isNamed Word.text || l.isProperty) (hiddenText.labelsAt top) ∧
      state.1.text = "xyz" ∧ (FlatText.ofDocument state.2 top).text = "xy" := by
  intro top state
  exact ⟨Document.wellFormed_ofTree .., by decide +kernel,
    by rw [show top = hiddenText.root from rfl, hiddenText, Document.labelsAt_root_ofTree]; decide +kernel,
    by decide +kernel, by decide +kernel⟩

end WordTemplate
