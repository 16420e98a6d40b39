import WordTemplate.Processing
import WordTemplate.Proofs.Block.Reading
import WordTemplate.Proofs.Directive.Ignored
import WordTemplate.Proofs.Directive.Scan
import WordTemplate.Proofs.Word.Detachment
import WordTemplate.Proofs.Word.Isolation

/-!
# Preparing a document

After the preparation every directive has a text element of its own, and the landmarks of the scope
read like the tokens of the text that was there before.

* `Isolable.isolateAll_spec`: isolating the directives of a text, one after another.
* `prepare_spec`: the landmarks after the whole preparation.
-/

namespace WordTemplate

open Xml Forest

/-! ## Texts that are no directives -/

/-- Whether a landmark is a text that is no directive. -/
def Landmark.IsPlain (x : Landmark) : Prop :=
  ∃ s, x.sign = .text [] s

theorem Landmark.IsPlain.isAnchor_eq {x : Landmark} (h : x.IsPlain) : x.sign.isAnchor = false := by
  obtain ⟨s, hs⟩ := h
  rw [hs]
  rfl

theorem isPlain_of_mem_partOf {n : NodeId} {path : List Crumb} {content : List Char} {x : Landmark}
    (h : x ∈ partOf n path content) : x.IsPlain ∧ x.path = path := by
  rw [partOf] at h
  split at h
  · simp at h
  · rw [List.mem_singleton.mp h]
    exact ⟨⟨_, rfl⟩, rfl⟩

theorem mem_shorten {k : Nat} {ls : List Landmark} {x : Landmark} (h : x ∈ shorten k ls) :
    ∃ y ∈ ls, x.path = y.path ∧ (y.IsPlain → x.IsPlain) := by
  induction ls generalizing k with
  | nil => simp [shorten] at h
  | cons y ls ih =>
    rw [shorten, List.mem_append] at h
    rcases h with h | h
    · refine ⟨y, List.mem_cons_self .., ?_⟩
      split at h
      · rw [List.mem_singleton.mp h]
        exact ⟨rfl, id⟩
      · split at h
        · simp at h
        · rw [List.mem_singleton.mp h, Landmark.drop]
          split
          · next marks s hs =>
            refine ⟨rfl, ?_⟩
            rintro ⟨s', hs'⟩
            rw [hs] at hs'
            cases hs'
            exact ⟨_, rfl⟩
          · exact ⟨rfl, id⟩
    · obtain ⟨z, hz, hx⟩ := ih h
      exact ⟨z, List.mem_cons_of_mem y hz, hx⟩

theorem flatChars_shorten (k : Nat) (ls : List Landmark) :
    flatChars (shorten k ls) = (flatChars ls).drop k := by
  induction ls generalizing k with
  | nil => simp [shorten]
  | cons x ls ih =>
    rw [shorten, flatChars_append, ih, flatChars_cons, List.drop_append]
    congr 1
    split
    · next h =>
      rcases h with rfl | h
      · simp
      · simp [h]
    · split
      · next h => rw [flatChars_nil, List.drop_eq_nil_of_le h]
      · simp [chars_drop]

/-- The text in which a character stands. -/
theorem exists_text_at {ls : List Landmark} {k : Nat} (hk : k < (flatChars ls).length) :
    ∃ u x v a, ls = u ++ x :: v ∧ k = (flatChars u).length + a ∧ a < x.sign.chars.length := by
  induction ls generalizing k with
  | nil => simp at hk
  | cons x ls ih =>
    rw [flatChars_cons, List.length_append] at hk
    by_cases h : k < x.sign.chars.length
    · exact ⟨[], x, ls, k, rfl, by simp, h⟩
    · obtain ⟨u, y, v, a, rfl, ha, hy⟩ := ih (k := k - x.sign.chars.length) (by omega)
      refine ⟨x :: u, y, v, a, rfl, ?_, hy⟩
      rw [flatChars_cons, List.length_append]
      omega

/-- Texts that are no directives read like their characters. -/
theorem Reads.plain {u ls : List Landmark} {ts : List Token} {ms : List Marker}
    (hu : ∀ x ∈ u, x.IsPlain) (h : Reads ls ts ms) :
    Reads (u ++ ls) ((flatChars u).map .char ++ ts) ms := by
  induction u with
  | nil => exact h
  | cons x u ih =>
    obtain ⟨s, hs⟩ := hu x (List.mem_cons_self ..)
    have hrest := ih fun y hy => hu y (List.mem_cons_of_mem x hy)
    have hchars : x.sign.chars = s.toList := by rw [hs]; rfl
    rw [flatChars_cons, hchars, List.map_append, List.append_assoc]
    exact .text hs hrest

/-! ## Isolating all directives -/

section Isolate

variable {P : Document → List Landmark → Prop} {d : Document} {root : NodeId}

/-- Isolating the directives of the texts `rest`, behind those that have been isolated before. -/
theorem Isolable.isolateAll_spec (hP : Isolable P) {position : Nat} {s : List Char} {ds : List Directive}
    {done rest : List Landmark} {flat : FlatText} (hcuts : Cuts position s ds) (h : P d (done ++ rest))
    (hflat : flat.entries = flatEntries (done ++ rest)) (hplain : ∀ x ∈ rest, x.IsPlain)
    (hs : flatChars rest = s) (hposition : (flatChars done).length = position) :
    ∃ ms d' rest', isolateAll flat d ds = (ms, d') ∧ P d' (done ++ rest') ∧
      Reads rest' (tokensFrom position s ds) ms ∧ ∀ x ∈ rest', ∃ y ∈ rest, x.path = y.path := by
  induction hcuts generalizing d done rest flat with
  | nil position s =>
    refine ⟨[], d, rest, rfl, h, ?_, fun x hx => ⟨x, hx, rfl⟩⟩
    subst hs
    simpa [tokensFrom] using Reads.plain hplain .nil
  | @cons position b after directive ds hp ht hk _ ih =>
    have hlength : directive.stop = (flatChars done).length + b.length + directive.text.toList.length := by
      rw [Directive.stop, Directive.length, hp, hposition, String.length_toList]
    have hpos : 0 < directive.text.toList.length := List.length_pos_iff.mpr ht
    -- The text in which the directive begins.
    obtain ⟨u, x, v, a, rfl, ha, hax⟩ := exists_text_at (show b.length < (flatChars rest).length by
      rw [hs]
      simp only [List.length_append]
      omega)
    have hsplit : (flatChars (x :: v)).drop a = directive.text.toList ++ after := by
      rw [flatChars_append] at hs
      have := congrArg (List.drop b.length) hs
      rw [List.drop_left, ha, List.drop_append, List.drop_eq_nil_of_le (Nat.le_add_right _ _)] at this
      simpa using this
    have hfront : b = flatChars u ++ x.sign.chars.take a := by
      have := congrArg (List.take b.length) hs
      rw [flatChars_append, flatChars_cons, List.take_left, ha, List.take_length_add_append,
        List.take_append_of_le_length (by omega)] at this
      exact this.symm
    obtain ⟨text, hx⟩ := hplain x (by simp)
    have hchars : x.sign.chars = text.toList := by rw [hx]; rfl
    rw [hchars] at hax hfront
    rw [← List.append_assoc] at h hflat
    have hstart : (flatChars (done ++ u)).length + a = directive.position := by
      rw [flatChars_append, List.length_append, hp, hposition]
      omega
    have hsize : (flatChars (done ++ u)).length + a + directive.text.toList.length ≤ flat.size := by
      rw [FlatText.size, hflat, length_flatEntries, flatChars_append _ (x :: v), List.length_append]
      have := congrArg List.length hsplit
      rw [List.length_drop, List.length_append] at this
      omega
    obtain ⟨flat', d', front, back, hrun, h', hflat'⟩ := hP.isolate_spec h hflat hx hax hpos hsize directive.kind
    rw [hsplit, List.take_left, String.ofList_toList, List.tail_nil] at h' hflat'
    -- The directive has a text of its own, and what is behind it is still to be read.
    let found : Landmark := ⟨x.node, .text [directive.kind.name] directive.text, x.path⟩
    let before := u ++ partOf front x.path (text.toList.take a)
    let behind := partOf back x.path (text.toList.drop (a + directive.text.toList.length)) ++
      shorten (directive.text.toList.length - (text.toList.length - a)) v
    have hsame : done ++ u ++ (partOf front x.path (text.toList.take a) ++ found :: behind) =
        (done ++ (before ++ [found])) ++ behind := by
      simp [before]
    have hbehind : ∀ y ∈ behind, y.IsPlain ∧ ∃ z ∈ u ++ x :: v, y.path = z.path := by
      intro y hy
      rcases List.mem_append.mp hy with hy | hy
      · exact ⟨(isPlain_of_mem_partOf hy).1, x, by simp, (isPlain_of_mem_partOf hy).2⟩
      · obtain ⟨z, hz, hpath, hyz⟩ := mem_shorten hy
        exact ⟨hyz (hplain z (by simp [hz])), z, by simp [hz], hpath⟩
    have hafter : flatChars behind = after := by
      have := congrArg (List.drop directive.text.toList.length) hsplit
      rw [List.drop_left, List.drop_drop, flatChars_cons, List.drop_append, hchars] at this
      rw [flatChars_append, flatChars_partOf, flatChars_shorten, ← this]
      congr 2
      omega
    rw [hsame] at h' hflat'
    have hbefore : (flatChars before).length = b.length := by
      rw [hfront, flatChars_append, flatChars_partOf]
    obtain ⟨ms, d'', rest', hall, h'', hreads, hpaths⟩ := ih h' hflat'
      (fun y hy => (hbehind y hy).1) hafter (by
        rw [flatChars_append, flatChars_append, List.length_append, List.length_append, hbefore,
          hlength, flatChars_cons, flatChars_nil, List.append_nil]
        exact (Nat.add_assoc ..).symm)
    have hstop : (flatChars (done ++ u)).length + a + directive.text.toList.length =
        directive.stop := by
      rw [hstart, Directive.stop, Directive.length, String.length_toList]
    rw [hstop, hstart] at hrun
    refine ⟨⟨x.node, directive⟩ :: ms, d'', before ++ found :: rest', ?_, by simpa using h'', ?_, ?_⟩
    · rw [isolateAll, hrun]
      simp only [hall]
    · rw [tokensFrom_cons hp]
      have hb : b = flatChars before := by
        rw [hfront, flatChars_append, flatChars_partOf]
      rw [hb]
      refine Reads.plain (fun y hy => ?_) (.directive (m := ⟨x.node, directive⟩)
        ⟨rfl, rfl⟩ hk hreads)
      rcases List.mem_append.mp hy with hy | hy
      · exact hplain y (by simp [hy])
      · exact (isPlain_of_mem_partOf hy).1
    · intro y hy
      simp only [before, List.mem_append, List.mem_cons] at hy
      rcases hy with (hy | hy) | rfl | hy
      · exact ⟨y, by simp [hy], rfl⟩
      · exact ⟨x, by simp, (isPlain_of_mem_partOf hy).2⟩
      · exact ⟨x, by simp, rfl⟩
      · obtain ⟨z, hz, hyz⟩ := hpaths y hy
        obtain ⟨z', hz', hzz'⟩ := (hbehind z hz).2
        exact ⟨z', hz', hyz.trans hzz'⟩

/-- Isolating all directives of a scope without directives. -/
theorem Isolable.isolateDirectives_spec (hP : Isolable P) {ls : List Landmark} (h : P d ls)
    (hflat : (FlatText.ofDocument d root).entries = flatEntries ls) (hplain : ∀ x ∈ ls, x.IsPlain) :
    ∃ ls', P (isolateDirectives d root).2 ls' ∧
      Reads ls' (tokens (FlatText.ofDocument d root).text) (isolateDirectives d root).1 ∧
      ∀ x ∈ ls', ∃ y ∈ ls, x.path = y.path := by
  have htext : (FlatText.ofDocument d root).text.toList = flatChars ls := by
    rw [FlatText.text, String.toList_ofList, hflat, map_char_flatEntries]
  have hcuts := cuts_findAll (FlatText.ofDocument d root).text
  rw [htext] at hcuts
  obtain ⟨ms, d', ls', hrun, h', hreads, hpaths⟩ := hP.isolateAll_spec hcuts
    (show P d ([] ++ ls) from h) hflat hplain rfl rfl
  refine ⟨ls', ?_, ?_, hpaths⟩ <;> simp only [isolateDirectives, hrun]
  · exact h'
  · rw [tokens, htext]
    exact hreads

end Isolate

/-! ## Marks that stand between directives -/

section Markup

variable {d : Document} {root : NodeId} {mute : List String}

theorem thins_removeMarkupAt (wf : d.WellFormed) (n : NodeId) :
    Thins mute d (d.removeMarkupAt n) root := by
  rw [Document.removeMarkupAt]
  split
  · exact .detach wf n
  · split
    · exact .detachFromRun wf n
    · exact .refl wf

theorem thins_removeMarkup (wf : d.WellFormed) : Thins mute d (d.removeMarkup root) root :=
  .foldl (fun _ n wf => thins_removeMarkupAt wf n) wf _

end Markup

/-! ## Line breaks -/

section Trim

variable {d : Document} {root : NodeId} {mute : List String} {ls : List Landmark}

theorem Alike.path_eq {ls ls' : List Landmark} (h : Alike ls ls') :
    ∀ x ∈ ls', ∃ y ∈ ls, x.path = y.path := by
  induction h with
  | nil => simp
  | @cons x x' ls ls' hx _ ih =>
    intro y hy
    rcases List.mem_cons.mp hy with rfl | hy
    · exact ⟨x, List.mem_cons_self .., hx.path_eq⟩
    · obtain ⟨z, hz, hyz⟩ := ih y hy
      exact ⟨z, List.mem_cons_of_mem x hz, hyz⟩

/-- Landmarks read the same up to what plain texts say. -/
theorem Reads.alike {ls ls' : List Landmark} {ts : List Token} {ms : List Marker}
    (h : Reads ls ts ms) (ha : Alike ls ls') : ∃ ts', Reads ls' ts' ms := by
  induction h generalizing ls' with
  | nil =>
    cases ha
    exact ⟨[], .nil⟩
  | text hs _ ih =>
    cases ha with
    | cons hx ha =>
      obtain ⟨ts', h'⟩ := ih ha
      rcases hx with rfl | ⟨s, s', -, rfl⟩
      · exact ⟨_, .text hs h'⟩
      · exact ⟨_, .text rfl h'⟩
  | directive hx hk _ ih =>
    cases ha with
    | cons hxy ha =>
      obtain ⟨ts', h'⟩ := ih ha
      rcases hxy with rfl | ⟨s, s', hs, -⟩
      · exact ⟨_, .directive hx hk h'⟩
      · rw [hx.sign_eq] at hs
        cases hs

theorem Alike.isAnchor_eq {ls ls' : List Landmark} (h : Alike ls ls')
    (hls : ∀ x ∈ ls, x.sign.isAnchor = false) : ∀ x ∈ ls', x.sign.isAnchor = false := by
  induction h with
  | nil => simp
  | @cons x x' ls ls' hx _ ih =>
    intro y hy
    rcases List.mem_cons.mp hy with rfl | hy
    · rcases hx with rfl | ⟨s, s', -, rfl⟩
      · exact hls _ (List.mem_cons_self ..)
      · rfl
    · exact ih (fun z hz => hls z (List.mem_cons_of_mem x hz)) y hy

theorem Reads.isAnchor_eq {ls : List Landmark} {ts : List Token} {ms : List Marker}
    (h : Reads ls ts ms) : ∀ x ∈ ls, x.sign.isAnchor = false := by
  induction h with
  | nil => simp
  | text hs _ ih => exact List.forall_mem_cons.mpr ⟨Landmark.IsPlain.isAnchor_eq ⟨_, hs⟩, ih⟩
  | directive hx _ _ ih => exact List.forall_mem_cons.mpr ⟨hx.isAnchor_eq, ih⟩

/-- Taking line breaks out of their runs. -/
theorem foldl_detachFromRun_alike {ns : List NodeId} (hmute : Word.lineBreak ∈ mute)
    (hC : Charted d root mute ls) (hplain : ∀ x ∈ ls, x.sign.isAnchor = false)
    (hns : ∀ n ∈ ns, d.isNamed n Word.lineBreak = true) :
    ∃ ls', d.Grows (ns.foldl Document.detachFromRun d) ∧
      Charted (ns.foldl Document.detachFromRun d) root mute ls' ∧ Alike ls ls' := by
  induction ns generalizing d ls with
  | nil => exact ⟨ls, .refl hC.wellFormed, hC, .refl ls⟩
  | cons n ns ih =>
    have hthins : Thins mute d (d.detachFromRun n) root := .detachFromRun hC.wellFormed n
    obtain ⟨label, hlabel, hname⟩ : ∃ label, d.label? n = some label ∧
        label.isNamed Word.lineBreak = true := by
      have hn := hns n (List.mem_cons_self ..)
      simp only [Document.isNamed, Document.name?, beq_iff_eq, Option.bind_eq_some_iff] at hn
      obtain ⟨label, hl, hname⟩ := hn
      exact ⟨label, hl, by rw [Label.isNamed, hname, beq_self_eq_true]⟩
    have helement : label.isElement = true := by
      cases label with
      | element tag => rfl
      | text content => simp [Label.isNamed, Label.name?] at hname
    have hmuted : label.isMute mute = true := by
      simp only [Label.isMute, Bool.or_eq_true, List.any_eq_true]
      exact .inr ⟨_, hmute, hname⟩
    obtain ⟨ls₁, hC₁, ha₁⟩ := detachFromRun_alike hC hplain hlabel helement hmuted
    obtain ⟨ls₂, hgrows, hC₂, ha₂⟩ := ih hC₁ (ha₁.isAnchor_eq hplain) fun m hm => by
      rw [Document.isNamed, Document.name?, hthins.label?_eq]
      exact hns m (List.mem_cons_of_mem n hm)
    exact ⟨ls₂, hthins.grows.trans hgrows, hC₂, ha₁.trans ha₂⟩

theorem trimLineBreaks_alike (hmute : Word.lineBreak ∈ mute) (hC : Charted d root mute ls)
    (hplain : ∀ x ∈ ls, x.sign.isAnchor = false) (n : NodeId) :
    ∃ ls', d.Grows (d.trimLineBreaks n) ∧ Charted (d.trimLineBreaks n) root mute ls' ∧
      Alike ls ls' := by
  have hsame : ∃ ls', d.Grows d ∧ Charted d root mute ls' ∧ Alike ls ls' :=
    ⟨ls, .refl hC.wellFormed, hC, .refl ls⟩
  have hbreaks : ∀ items, ∀ m ∈ d.breaksBeforeText items, d.isNamed m Word.lineBreak = true :=
    fun items m hm => (List.mem_filter.mp hm).2
  rw [Document.trimLineBreaks]
  split
  · exact hsame
  · dsimp only
    split
    · exact hsame
    · refine foldl_detachFromRun_alike hmute hC hplain fun m hm => ?_
      rcases List.mem_append.mp hm with hm | hm
      · exact hbreaks _ m hm
      · exact hbreaks _ m hm

theorem foldl_trimLineBreaks_alike (hmute : Word.lineBreak ∈ mute) (hC : Charted d root mute ls)
    (hplain : ∀ x ∈ ls, x.sign.isAnchor = false) (ns : List NodeId) :
    ∃ ls', d.Grows (ns.foldl Document.trimLineBreaks d) ∧
      Charted (ns.foldl Document.trimLineBreaks d) root mute ls' ∧ Alike ls ls' := by
  induction ns generalizing d ls with
  | nil => exact ⟨ls, .refl hC.wellFormed, hC, .refl ls⟩
  | cons n ns ih =>
    obtain ⟨ls₁, hgrows₁, hC₁, ha₁⟩ := trimLineBreaks_alike hmute hC hplain n
    obtain ⟨ls₂, hgrows₂, hC₂, ha₂⟩ := ih hC₁ (ha₁.isAnchor_eq hplain)
    exact ⟨ls₂, hgrows₁.trans hgrows₂, hC₂, ha₁.trans ha₂⟩

end Trim

/-! ## Documents before processing -/

/-- Whether no text element is below a node that `closed` accepts. -/
def TextsOutside (closed : Label → Bool) : Forest Label → Prop
  | .nil => True
  | .cons l cs rest =>
    (closed l = true → ∀ m ∈ cs.toList, m.isNamed Word.text = false) ∧ TextsOutside closed cs ∧
      TextsOutside closed rest

theorem TextsOutside.mono {closed closed' : Label → Bool} {f : Forest Label}
    (h : ∀ l, closed l = true → closed' l = true) (hf : TextsOutside closed' f) : TextsOutside closed f := by
  induction f with
  | nil => trivial
  | cons l cs rest ihc ihr => exact ⟨fun hl => hf.1 (h l hl), ihc hf.2.1, ihr hf.2.2⟩

/-- Whether no node has a mark or an insertion point, and no text element is inside another one or
inside a mute node. -/
structure Pristine (mute : List String) (f : Forest Label) : Prop where
  mark_eq : ∀ l ∈ f.toList, l.attribute? Word.markAttribute = none
  insertion_eq : ∀ l ∈ f.toList, l.attribute? Word.insertionAttribute = none
  texts : TextsOutside (fun l => l.isNamed Word.text || l.isMute mute) f

section Pristine

variable {mute : List String} {f : Forest Label}

theorem isAnchor_eq_false {l : Label} (h : l.attribute? Word.insertionAttribute = none) :
    l.isAnchor = false := by
  rw [Label.isAnchor, h]
  rfl

theorem marks_eq_nil {l : Label} (h : l.attribute? Word.markAttribute = none) : l.marks = [] := by
  cases l with
  | text content => rfl
  | element tag =>
    rw [Label.attribute?, List.lookup_eq_none_iff] at h
    rw [Label.marks, List.map_eq_nil_iff, List.filter_eq_nil_iff]
    intro p hp hkey
    have := h p hp
    rw [beq_iff_eq] at hkey
    simp [hkey] at this

/-- A text element is not mute. -/
theorem isNamed_text_eq_false {l : Label} (hmute : Word.text ∉ mute) (h : l.isMute mute = true) :
    l.isNamed Word.text = false := by
  cases l with
  | text content => rfl
  | element tag =>
    by_contra hn
    simp only [Label.isNamed, Label.name?, Bool.not_eq_false, beq_iff_eq, Option.some.injEq] at hn
    simp only [Label.isMute, Label.isElement, Label.isProperty, Label.isNamed, Label.name?, hn,
      Bool.or_eq_true, List.any_eq_true] at h
    rcases h with (h | h) | ⟨name, hname, h⟩
    · simp at h
    · exact absurd h (by decide)
    · rw [beq_iff_eq, Option.some.injEq] at h
      exact hmute (h ▸ hname)

theorem Pristine.sound (hmute : Word.text ∉ mute) (h : Pristine mute f) : Sound mute f := by
  obtain ⟨hmark, hpoint, htexts⟩ := h
  induction f with
  | nil => trivial
  | cons l cs rest ihc ihr =>
    have hin : ∀ m ∈ cs.toList, m ∈ (cons l cs rest).toList := by simp +contextual [toList]
    have hrest : ∀ m ∈ rest.toList, m ∈ (cons l cs rest).toList := by simp +contextual [toList]
    have hl : l ∈ (cons l cs rest).toList := by simp [toList]
    have hland : l.isLandmark = l.isNamed Word.text := by
      rw [Label.isLandmark, isAnchor_eq_false (hpoint l hl), Bool.false_or]
    -- Nothing is an anchor, so a forest without texts is quiet.
    have hquiet : (l.isNamed Word.text || l.isMute mute) = true → Quiet cs := by
      intro hclosed m hm
      rw [Label.isLandmark, isAnchor_eq_false (hpoint m (hin m hm)), htexts.1 hclosed m hm,
        Bool.false_or]
    refine ⟨fun htext => ⟨hquiet ?_, ?_, fun hm => ?_⟩, fun hm => ⟨?_, hquiet ?_⟩,
      ihc (fun m hm => hmark m (hin m hm)) (fun m hm => hpoint m (hin m hm)) htexts.2.1,
      ihr (fun m hm => hmark m (hrest m hm)) (fun m hm => hpoint m (hrest m hm)) htexts.2.2⟩
    · rw [← hland, htext, Bool.true_or]
    · rw [isAnchor_eq_false (hpoint l hl), Bool.false_and]
    · exact absurd (marks_eq_nil (hmark l hl)) hm
    · rw [hland, isNamed_text_eq_false hmute hm]
    · rw [hm, Bool.or_true]

/-- The landmarks of a forest without marks and anchors are plain texts. -/
theorem isPlain_of_mem_landmarks {f : Forest Node} {x : Landmark}
    (hmark : ∀ l ∈ (labels f).toList, l.attribute? Word.markAttribute = none)
    (hpoint : ∀ l ∈ (labels f).toList, l.attribute? Word.insertionAttribute = none)
    (hx : x ∈ landmarks f) : x.IsPlain := by
  obtain ⟨u, w, hl⟩ := List.append_of_mem hx
  obtain ⟨up, l, node, cs, r, rfl, -, -, rfl, -, -⟩ := exists_landmark_spot hl
  have hmem : node.label ∈ (labels (wrap up (l ++ cons node cs r))).toList := by
    rw [labels, toList_map]
    refine List.mem_map_of_mem ?_
    rw [toList_wrap]
    simp [toList]
  refine ⟨innerText (labels cs), ?_⟩
  simp only [signOf, isAnchor_eq_false (hpoint _ hmem), marks_eq_nil (hmark _ hmem),
    Bool.false_eq_true, if_false]

/-- The nodes above a landmark have labels of the forest. -/
theorem exists_label_of_mem_path {f : Forest Node} {x : Landmark} {k : Crumb}
    (hx : x ∈ landmarks f) (hk : k ∈ x.path) : ∃ l ∈ (labels f).toList, k.name = l.name? := by
  obtain ⟨u, w, hl⟩ := List.append_of_mem hx
  obtain ⟨up, l, node, cs, r, rfl, -, -, rfl, -, -⟩ := exists_landmark_spot hl
  obtain ⟨fr, hfr, rfl⟩ := List.mem_map.mp hk
  refine ⟨fr.value.label, ?_, rfl⟩
  rw [labels, toList_map, toList_wrap]
  exact List.mem_map_of_mem (List.mem_append_left _ (value_mem_opening hfr))

/-- The chart of a scope before processing. -/
theorem Pristine.charted {d : Document} {root : NodeId} {label : Label} (hmute : Word.text ∉ mute)
    (h : Pristine mute (d.labelsAt root)) (wf : d.WellFormed) (hroot : d.label? root = some label)
    (htext : label.isNamed Word.text = false) : Charted d root mute (landmarks (d.treeAt root)) := by
  obtain ⟨node, cs, rfl, hnode⟩ := wf.exists_treeAt (wf.mem_ids_of_label? hroot)
  obtain rfl : node.label = label := by
    rw [Document.label?, hnode] at hroot
    exact Option.some.inj hroot
  have hin : node.label ∈ (d.labelsAt node.id).toList := by
    rw [Document.labelsAt, hnode]
    simp [tree, toList]
  refine ⟨wf, ⟨node, cs, hnode, ?_⟩, h.sound hmute, rfl⟩
  rw [Label.isLandmark, isAnchor_eq_false (h.insertion_eq _ hin), htext]
  rfl

/-- The scope is on top of the nodes above a landmark. -/
theorem Charted.getLast?_eq {d : Document} {root : NodeId} {ls : List Landmark} (hC : Charted d root mute ls) :
    ∀ x ∈ ls, x.path.getLast? = some ⟨root, (d.label? root).bind Label.name?⟩ := by
  intro x hx
  obtain ⟨node, cs, hnode, hland⟩ := hC.exists_eq
  rw [← hC.landmarks_eq, hnode] at hx
  rw [getLast?_path hland hx, crumbOf, Document.label?, hnode, (hC.wellFormed.mem_ids_of_treeAt hnode).2]
  rfl

end Pristine

/-! ## The whole preparation -/

namespace Settings

/-- The elements that may be taken out with everything inside: line breaks, if they are trimmed. -/
def mute (settings : Settings) : List String :=
  if settings.trimLineBreaks then [Word.lineBreak] else []

theorem not_mem_mute {settings : Settings} {name : String} (h : name ≠ Word.lineBreak) :
    name ∉ settings.mute := by
  rw [mute]
  split <;> simp [h]

end Settings

/-- What the preparation of a document does: the landmarks of the scope read like a text, and the
nodes above them were there before, with the scope on top. -/
structure Prepares (settings : Settings) (d : Document) (root : NodeId) (ls : List Landmark)
    (ts : List Token) : Prop where
  grows : d.Grows (prepare settings root d).2
  charted : Charted (prepare settings root d).2 root settings.mute ls
  reads : Reads ls ts (prepare settings root d).1
  skips : SkipsIgnored false (directivesOf ts)
  name_eq : ∀ x ∈ ls, ∀ k ∈ x.path, ∃ l ∈ (d.labelsAt root).toList, k.name = l.name?
  getLast?_eq : ∀ x ∈ ls, x.path.getLast? = some ⟨root, (d.label? root).bind Label.name?⟩

/-- The directives among the tokens are those of the markers. -/
theorem Reads.directivesOf_eq {ls : List Landmark} {ts : List Token} {ms : List Marker}
    (h : Reads ls ts ms) : directivesOf ts = ms.map Marker.directive := by
  induction h with
  | nil => rfl
  | text _ _ ih => rw [directivesOf_append, directivesOf_chars, List.nil_append, ih]
  | directive _ _ _ ih => rw [directivesOf_directive, List.map_cons, ih]

theorem prepare_snd (settings : Settings) (root : NodeId) (d : Document) :
    (prepare settings root d).2 =
      if settings.trimLineBreaks then
        ((isolateDirectives (d.removeMarkup root) root).1.map Marker.node).foldl
          Document.trimLineBreaks (isolateDirectives (d.removeMarkup root) root).2
      else (isolateDirectives (d.removeMarkup root) root).2 := rfl

theorem prepare_spec {settings : Settings} {d : Document} {root : NodeId} {label : Label}
    (wf : d.WellFormed) (hroot : d.label? root = some label) (htext : label.isNamed Word.text = false)
    (h : Pristine settings.mute (d.labelsAt root)) : ∃ ls ts, Prepares settings d root ls ts := by
  have hmute : Word.text ∉ settings.mute := Settings.not_mem_mute (by decide)
  have hthins : Thins settings.mute d (d.removeMarkup root) root := thins_removeMarkup wf
  have hsubset : ∀ l ∈ (labels ((d.removeMarkup root).treeAt root)).toList,
      l ∈ (d.labelsAt root).toList := hthins.thinner.subset
  have hC := (h.charted hmute wf hroot htext).of_thins hthins
  obtain ⟨ls, ⟨hw, hC₁⟩, hreads, hpaths⟩ := (isolable_charted hC.wellFormed hC.mem_ids hmute).isolateDirectives_spec
    ⟨.refl hC.wellFormed, hC⟩ (ofDocument_eq hC) fun x hx =>
      isPlain_of_mem_landmarks (fun l hl => h.mark_eq l (hsubset l hl))
        (fun l hl => h.insertion_eq l (hsubset l hl)) hx
  have hgrows := hw.grows
  -- Nothing is above a landmark but what was above one before.
  have hpath : ∀ x ∈ ls, ∀ k ∈ x.path, ∃ l ∈ (d.labelsAt root).toList, k.name = l.name? := by
    intro x hx k hk
    obtain ⟨y, hy, hxy⟩ := hpaths x hx
    obtain ⟨l, hl, hk⟩ := exists_label_of_mem_path hy (hxy ▸ hk)
    exact ⟨l, hsubset l hl, hk⟩
  have htop : ∀ x ∈ ls, x.path.getLast? = some ⟨root, (d.label? root).bind Label.name?⟩ := by
    intro x hx
    obtain ⟨y, hy, hxy⟩ := hpaths x hx
    rw [hxy, hC.getLast?_eq y hy, hthins.label?_eq]
  have hskips : SkipsIgnored false
      (directivesOf (tokens (FlatText.ofDocument (d.removeMarkup root) root).text)) := by
    rw [tokens, directivesOf_tokensFrom]
    exact skipsIgnored_findAll _
  by_cases htrim : settings.trimLineBreaks = true
  · have hbreak : Word.lineBreak ∈ settings.mute := by simp [Settings.mute, htrim]
    obtain ⟨ls', hgrows', hC₂, ha⟩ := foldl_trimLineBreaks_alike hbreak hC₁
      (fun x hx => hreads.isAnchor_eq x hx)
      ((isolateDirectives (d.removeMarkup root) root).1.map Marker.node)
    obtain ⟨ts', hreads'⟩ := hreads.alike ha
    refine ⟨ls', ts', ?_, ?_, ?_, ?_, fun x hx => ?_, fun x hx => ?_⟩
    · rw [prepare_snd, if_pos htrim]
      exact (hthins.grows.trans hgrows).trans hgrows'
    · rw [prepare_snd, if_pos htrim]
      exact hC₂
    · exact hreads'
    · rwa [hreads'.directivesOf_eq, ← hreads.directivesOf_eq]
    · obtain ⟨y, hy, hxy⟩ := ha.path_eq x hx
      rw [hxy]
      exact hpath y hy
    · obtain ⟨y, hy, hxy⟩ := ha.path_eq x hx
      rw [hxy]
      exact htop y hy
  · refine ⟨ls, tokens (FlatText.ofDocument (d.removeMarkup root) root).text, ?_, ?_, hreads,
      hskips, hpath, htop⟩
    · rw [prepare_snd, if_neg htrim]
      exact hthins.grows.trans hgrows
    · rw [prepare_snd, if_neg htrim]
      exact hC₁

end WordTemplate
