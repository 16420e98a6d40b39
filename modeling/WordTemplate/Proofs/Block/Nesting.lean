import WordTemplate.Preparation
import WordTemplate.Proofs.Block.Reading
import WordTemplate.Proofs.Directive.Ignored
import WordTemplate.Proofs.Directive.Scan
import WordTemplate.Block.Template

/-!
# How blocks are nested

Blocks as the directives of a text make them: a block is of the kind of the directive that opens it,
and an ignored region has a single section, because no directive within it counts. Placing the blocks
and taking out their contents leaves them nested in this way.

* `conforms_nest`: the blocks that are made.
* `directives_isolateDirectives`: each directive that is found in a document gets a marker.
* `map_block_placeAll`, `map_block_extractAll`: the blocks afterwards.
-/

namespace WordTemplate

open Xml Forest

namespace Block

/-! ## Blocks -/

/-- Whether blocks are of the kinds of their directives, sections apart, and those below an ignored
region begin where it begins. -/
def Conforms : Forest Block → Prop
  | .nil => True
  | .cons b inner rest =>
    (b.kind = .content ∨ b.kind = b.start.directive.kind) ∧
      (b.kind = .ignoreStart → ∀ c ∈ inner.toList, c.start = b.start) ∧
      Conforms inner ∧ Conforms rest

theorem conforms_append {F G : Forest Block} : Conforms (F ++ G) ↔ Conforms F ∧ Conforms G := by
  induction F with
  | nil => simp [Conforms]
  | cons b inner rest _ ih => simp only [cons_append, Conforms, ih, and_assoc]

/-- One more block in a list that has the last block first. -/
theorem conforms_ofTrees_cons {b : Built} {bs : List Built} :
    Conforms (ofTrees (b :: bs).reverse) ↔
      Conforms (ofTrees bs.reverse) ∧ Conforms (tree b.1 b.2) := by
  rw [ofTrees_reverse_cons, conforms_append]

/-- What is so of an open block: its complete sections and the blocks in the current one conform, and
if it is an ignored region, it is in its first section, without any blocks. -/
structure Opened.Conforms (o : Opened) : Prop where
  kind_eq : o.kind = o.start.directive.kind
  sections : Block.Conforms (ofTrees o.sections.reverse)
  inner : Block.Conforms (ofTrees o.inner.reverse)
  sectionKind_eq : o.sectionKind = .content ∨ o.sectionKind = o.sectionStart.directive.kind
  sectionKind_ne : o.sectionKind ≠ .ignoreStart
  ignored : o.kind = .ignoreStart → o.sections = [] ∧ o.inner = [] ∧ o.sectionStart = o.start

section Opened

variable {o : Opened} {m : Marker} {b : Built}

theorem Opened.conforms_begin (m : Marker) : (Opened.begin m).Conforms where
  kind_eq := rfl
  sections := trivial
  inner := trivial
  sectionKind_eq := .inl rfl
  sectionKind_ne := by simp [Opened.begin]
  ignored _ := ⟨rfl, rfl, rfl⟩

theorem Opened.Conforms.add (h : o.Conforms) (ho : o.kind ≠ .ignoreStart)
    (hb : Block.Conforms (tree b.1 b.2)) : (o.add b).Conforms :=
  { h with inner := conforms_ofTrees_cons.mpr ⟨h.inner, hb⟩, ignored := fun he => absurd he ho }

theorem Opened.Conforms.currentSection (h : o.Conforms) (m : Marker) :
    Block.Conforms (tree (o.currentSection m).1 (o.currentSection m).2) :=
  ⟨h.sectionKind_eq, fun he => absurd he h.sectionKind_ne, h.inner, trivial⟩

theorem Opened.Conforms.separate (h : o.Conforms) (ho : o.kind ≠ .ignoreStart)
    (hm : m.directive.kind.isSeparator = true) : (o.separate m).Conforms where
  kind_eq := h.kind_eq
  sections := conforms_ofTrees_cons.mpr ⟨h.sections, h.currentSection m⟩
  inner := trivial
  sectionKind_eq := .inr rfl
  sectionKind_ne := by
    intro he
    rw [show m.directive.kind = .ignoreStart from he] at hm
    cases hm
  ignored he := absurd he ho

theorem Opened.Conforms.close (h : o.Conforms) (m : Marker) :
    Block.Conforms (tree (o.close m).1 (o.close m).2) := by
  refine ⟨.inr h.kind_eq, fun he => ?_, conforms_ofTrees_cons.mpr ⟨h.sections, h.currentSection m⟩,
    trivial⟩
  obtain ⟨hsections, hinner, hstart⟩ := h.ignored he
  intro c hc
  simp only [Opened.close, Opened.currentSection, hsections, hinner, List.reverse_cons,
    List.reverse_nil, List.nil_append, ofTrees, toList, List.append_nil, List.mem_singleton] at hc
  rw [hc]
  exact hstart

end Opened

/-! ## The machine -/

/-- Whether the innermost open block is an ignored region. -/
def Progress.ignoring (p : Progress) : Bool :=
  p.opened.head?.any (·.kind = .ignoreStart)

/-- Whether all blocks conform, and none of the open ones is an ignored region, the innermost one
apart. -/
structure Progress.Conforms (p : Progress) : Prop where
  roots : Block.Conforms (ofTrees p.roots.reverse)
  opened : ∀ o ∈ p.opened, o.Conforms
  outer : ∀ o ∈ p.opened.tail, o.kind ≠ .ignoreStart

section Machine

variable {p p' : Progress} {m : Marker} {b : Built} {o : Opened} {outer : List Opened}
  {ds : List Directive}

theorem Progress.Conforms.add (h : p.Conforms) (hp : p.ignoring = false)
    (hb : Block.Conforms (tree b.1 b.2)) : (p.add b).Conforms ∧ (p.add b).ignoring = false := by
  obtain ⟨roots, opened⟩ := p
  cases opened with
  | nil => exact ⟨⟨conforms_ofTrees_cons.mpr ⟨h.roots, hb⟩, h.opened, h.outer⟩, rfl⟩
  | cons o outer =>
    have ho : o.kind ≠ .ignoreStart := by simpa [Progress.ignoring] using hp
    refine ⟨⟨h.roots, ?_, h.outer⟩, by simpa [Progress.ignoring, Progress.add, Opened.add] using ho⟩
    rintro o' (_ | ⟨_, ho'⟩)
    · exact (h.opened o (List.mem_cons_self ..)).add ho hb
    · exact h.opened o' (List.mem_cons_of_mem _ ho')

/-- The end of the innermost open block. -/
theorem Progress.Conforms.close (h : p.Conforms) (ho : p.opened = o :: outer) (m : Marker) :
    (Progress.add { p with opened := outer } (o.close m)).Conforms ∧
      (Progress.add { p with opened := outer } (o.close m)).ignoring = false := by
  obtain ⟨hroots, hopened, houter⟩ := h
  rw [ho] at hopened houter
  refine Progress.Conforms.add (p := { p with opened := outer }) ⟨hroots, fun o' ho' =>
    hopened o' (List.mem_cons_of_mem _ ho'), fun o' ho' => houter o' (List.mem_of_mem_tail ho')⟩ ?_
    ((hopened o (List.mem_cons_self ..)).close m)
  cases outer with
  | nil => rfl
  | cons o' outer' => simpa [Progress.ignoring] using houter o' (List.mem_cons_self ..)

/-- One step of the machine. -/
theorem Progress.Conforms.feed (h : p.Conforms) (hds : SkipsIgnored p.ignoring (m.directive :: ds))
    (hp : p.feed m = .ok p') : p'.Conforms ∧ SkipsIgnored p'.ignoring ds := by
  cases hign : p.ignoring with
  | true =>
    rw [hign] at hds
    obtain ⟨hkind, hds⟩ := hds
    cases ho : p.opened with
    | nil => simp [Progress.ignoring, ho] at hign
    | cons o outer =>
      simp only [Progress.feed, hkind, ho, Directive.Kind.isBlockStart, Directive.Kind.isSeparator,
        Directive.Kind.isBlockEnd, reduceCtorEq, if_false, if_true, Bool.false_eq_true] at hp
      cases hp
      obtain ⟨hclose, hfree⟩ := h.close ho m
      exact ⟨hclose, hfree ▸ hds⟩
  | false =>
    rw [hign, SkipsIgnored] at hds
    simp only [Progress.feed] at hp
    split at hp
    · next hkind =>
      cases hp
      obtain ⟨hadd, hfree⟩ := h.add (b := (⟨m.directive.kind, m, m⟩, .nil)) hign
        ⟨.inr rfl, by simp [toList], trivial, trivial⟩
      rw [hkind] at hds
      exact ⟨hadd, hfree ▸ hds⟩
    split at hp
    · next hstart =>
      cases hp
      refine ⟨⟨h.roots, ?_, ?_⟩, hds⟩
      · rintro o (_ | ⟨_, ho⟩)
        · exact Opened.conforms_begin m
        · exact h.opened o ho
      · intro o ho
        cases hopened : p.opened with
        | nil => simp [hopened] at ho
        | cons o' outer =>
          simp only [List.tail_cons, hopened, List.mem_cons] at ho
          rcases ho with rfl | ho
          · simpa [Progress.ignoring, hopened] using hign
          · exact h.outer o (by simpa [hopened] using ho)
    next hstart =>
    have hds : SkipsIgnored false ds := by
      refine (?_ : decide (m.directive.kind = .ignoreStart) = false) ▸ hds
      refine decide_eq_false fun he => hstart ?_
      rw [he]
      rfl
    split at hp
    · next hsep =>
      cases ho : p.opened with
      | nil => simp [ho] at hp
      | cons o outer =>
        rw [ho] at hp
        cases hp
        have hkind : o.kind ≠ .ignoreStart := by simpa [Progress.ignoring, ho] using hign
        refine ⟨⟨h.roots, ?_, ?_⟩, ?_⟩
        · rintro o' (_ | ⟨_, ho'⟩)
          · exact (h.opened o (by simp [ho])).separate hkind hsep
          · exact h.opened o' (ho ▸ List.mem_cons_of_mem o ho')
        · exact fun o' ho' => h.outer o' (by simpa [ho] using ho')
        · rw [show Progress.ignoring _ = false by
            simpa [Progress.ignoring, Opened.separate] using hkind]
          exact hds
    split at hp
    · cases ho : p.opened with
      | nil => simp [ho] at hp
      | cons o outer =>
        rw [ho] at hp
        cases hp
        obtain ⟨hclose, hfree⟩ := h.close ho m
        exact ⟨hclose, hfree ▸ hds⟩
    · cases hp
      exact ⟨h, hign ▸ hds⟩

/-- The blocks that are made of directives, of which none stands in an ignored region. -/
theorem conforms_nest {ms : List Marker} {B : Forest Block}
    (hds : SkipsIgnored false (ms.map Marker.directive)) (hB : nest ms = .ok B) : Conforms B := by
  have key : ∀ p : Progress, p.Conforms → SkipsIgnored p.ignoring (ms.map Marker.directive) →
      (ms.foldlM Progress.feed p).bind Progress.finish = .ok B → Conforms B := by
    clear hds hB
    induction ms with
    | nil =>
      intro p h _ hB
      simp only [List.foldlM_nil, pure, Except.pure, Except.bind, Progress.finish] at hB
      split at hB
      · cases hB
        exact h.roots
      · cases hB
    | cons m ms ih =>
      intro p h hds hB
      rw [List.foldlM_cons] at hB
      cases hp : p.feed m with
      | error e =>
        rw [hp] at hB
        cases hB
      | ok p' =>
        rw [hp] at hB
        obtain ⟨h', hds'⟩ := h.feed hds hp
        exact ih p' h' hds' hB
  exact key ⟨[], []⟩ ⟨trivial, by simp, by simp⟩ hds hB

end Machine

/-! ## The markers of blocks -/

/-- Whether blocks start and stop at markers of which `G` holds. -/
def Bounds (G : Marker → Prop) (F : Forest Block) : Prop :=
  ∀ b ∈ F.toList, G b.start ∧ G b.stop

/-- Whether `G` holds of all markers of an open block. -/
structure Opened.Knows (G : Marker → Prop) (o : Opened) : Prop where
  start : G o.start
  sections : Bounds G (ofTrees o.sections.reverse)
  sectionStart : G o.sectionStart
  inner : Bounds G (ofTrees o.inner.reverse)

/-- Whether `G` holds of all markers that have been taken up. -/
structure Progress.Knows (G : Marker → Prop) (p : Progress) : Prop where
  roots : Bounds G (ofTrees p.roots.reverse)
  opened : ∀ o ∈ p.opened, o.Knows G

section Bounds

variable {G : Marker → Prop} {p p' : Progress} {o : Opened} {m : Marker} {b : Built} {bs : List Built}

theorem bounds_ofTrees_cons (hbs : Bounds G (ofTrees bs.reverse)) (hb : Bounds G (tree b.1 b.2)) :
    Bounds G (ofTrees (b :: bs).reverse) := by
  intro c hc
  rw [ofTrees_reverse_cons, toList_append, List.mem_append] at hc
  exact hc.elim (hbs c) (hb c)

theorem bounds_tree {c : Block} {F : Forest Block} (hc : G c.start ∧ G c.stop) (hF : Bounds G F) :
    Bounds G (tree c F) := by
  intro b hb
  simp only [tree, toList, List.append_nil, List.mem_cons] at hb
  rcases hb with rfl | hb
  · exact hc
  · exact hF b hb

theorem Opened.Knows.currentSection (h : o.Knows G) (hm : G m) :
    Bounds G (tree (o.currentSection m).1 (o.currentSection m).2) :=
  bounds_tree ⟨h.sectionStart, hm⟩ h.inner

theorem Opened.Knows.close (h : o.Knows G) (hm : G m) :
    Bounds G (tree (o.close m).1 (o.close m).2) :=
  bounds_tree ⟨h.start, hm⟩ (bounds_ofTrees_cons h.sections (h.currentSection hm))

theorem Progress.Knows.add (h : p.Knows G) (hb : Bounds G (tree b.1 b.2)) : (p.add b).Knows G := by
  obtain ⟨roots, opened⟩ := p
  cases opened with
  | nil => exact ⟨bounds_ofTrees_cons h.roots hb, h.opened⟩
  | cons o outer =>
    refine ⟨h.roots, ?_⟩
    rintro o' (_ | ⟨_, ho'⟩)
    · have ho := h.opened o (List.mem_cons_self ..)
      exact { ho with inner := bounds_ofTrees_cons ho.inner hb }
    · exact h.opened o' (List.mem_cons_of_mem _ ho')

theorem Progress.Knows.feed (h : p.Knows G) (hm : G m) (hp : p.feed m = .ok p') : p'.Knows G := by
  simp only [Progress.feed] at hp
  split at hp
  · cases hp
    exact h.add (bounds_tree ⟨hm, hm⟩ fun b hb => by cases hb)
  split at hp
  · cases hp
    refine ⟨h.roots, ?_⟩
    rintro o (_ | ⟨_, ho⟩)
    · exact ⟨hm, fun b hb => (by cases hb), hm, fun b hb => by cases hb⟩
    · exact h.opened o ho
  split at hp
  · split at hp
    · cases hp
    · next o outer ho =>
      cases hp
      have hall := h.opened
      rw [ho, List.forall_mem_cons] at hall
      refine ⟨h.roots, List.forall_mem_cons.mpr ⟨?_, hall.2⟩⟩
      exact ⟨hall.1.start, bounds_ofTrees_cons hall.1.sections (hall.1.currentSection hm), hm,
        fun b hb => by cases hb⟩
  split at hp
  · split at hp
    · cases hp
    · next o outer ho =>
      cases hp
      have hall := h.opened
      rw [ho, List.forall_mem_cons] at hall
      exact Progress.Knows.add (p := { p with opened := outer }) ⟨h.roots, hall.2⟩ (hall.1.close hm)
  · cases hp
    exact h

/-- The blocks that are made of directives start and stop at these. -/
theorem bounds_nest {ms : List Marker} {B : Forest Block} (hms : ∀ m ∈ ms, G m)
    (hB : nest ms = .ok B) : Bounds G B := by
  have key : ∀ p : Progress, p.Knows G →
      (ms.foldlM Progress.feed p).bind Progress.finish = .ok B → Bounds G B := by
    clear hB
    induction ms with
    | nil =>
      intro p h hB
      simp only [List.foldlM_nil, pure, Except.pure, Except.bind, Progress.finish] at hB
      split at hB
      · cases hB
        exact h.roots
      · cases hB
    | cons m ms ih =>
      intro p h hB
      rw [List.foldlM_cons] at hB
      rw [List.forall_mem_cons] at hms
      cases hp : p.feed m with
      | error e =>
        rw [hp] at hB
        cases hB
      | ok p' =>
        rw [hp] at hB
        exact ih hms.2 p' (h.feed hms.1 hp) hB
  exact key ⟨[], []⟩ ⟨fun b hb => (by cases hb), fun o ho => by cases ho⟩ hB

end Bounds

/-! ## Blocks in a document -/

/-- What placing one block comes to. -/
theorem placeOne_eq_match (number : Nat) (b : Block) (d : Document) :
    placeOne number b d =
      match place? d b.start.node b.stop.node with
      | none => .error (.disjoint b.name) d
      | some ((first, last), d') =>
        .ok ⟨number, b, first, last⟩
          ((d'.attach first (startPoint b.kind number)).attach last (endPoint b.kind number)) := by
  have hget : (EStateM.get : EStateM Error Document Document) d = .ok d d := rfl
  unfold placeOne
  change EStateM.bind EStateM.get _ d = _
  simp only [EStateM.bind, hget]
  cases place? d b.start.node b.stop.node <;> rfl

/-- A block that is placed keeps its number and stays the same. -/
theorem placeOne_eq_ok {number : Nat} {b : Block} {p : Placed} {d d' : Document}
    (h : placeOne number b d = .ok p d') : p.number = number ∧ p.block = b := by
  rw [placeOne_eq_match] at h
  split at h
  · cases h
  · cases h
    exact ⟨rfl, rfl⟩

theorem map_block_placeAll {F : Forest (Nat × Block)} {B : Forest Placed} {d d' : Document}
    (h : placeAll F d = .ok B d') : B.map Placed.block = F.map Prod.snd := by
  induction F generalizing B d d' with
  | nil =>
    cases h
    rfl
  | cons nb inner rest ihi ihr =>
    change EStateM.bind (placeOne nb.1 nb.2) _ d = _ at h
    simp only [EStateM.bind] at h
    split at h
    · next p d₁ hp =>
      change EStateM.bind (placeAll inner) _ d₁ = _ at h
      simp only [EStateM.bind] at h
      split at h
      · next I d₂ hI =>
        change EStateM.bind (placeAll rest) _ d₂ = _ at h
        simp only [EStateM.bind] at h
        split at h
        · next R d₃ hR =>
          cases h
          simp only [Forest.map, ihi hI, ihr hR, (placeOne_eq_ok hp).2]
        · cases h
      · cases h
    · cases h

theorem map_block_extractAll (B : Forest Placed) (d : Document) :
    (extractAll B d).1.map Template.block = B.map Placed.block := by
  induction B generalizing d with
  | nil => rfl
  | cons p inner rest ihi ihr =>
    simp only [extractAll, Forest.map, ihi, ihr]

end Block

/-! ## Directives in a document -/

theorem bounds_of_cuts {position : Nat} {s : List Char} {ds : List Directive}
    (h : Cuts position s ds) :
    ∀ d ∈ ds, d.position < d.stop ∧ d.stop ≤ position + s.length := by
  induction h with
  | nil => simp
  | @cons position b after d ds hp ht hk h ih =>
    have hlength : d.text.toList.length = d.length := String.length_toList
    have hpos := List.length_pos_iff.mpr ht
    have hstop : d.stop = d.position + d.length := rfl
    simp only [List.length_append]
    intro e he
    rcases List.mem_cons.mp he with rfl | he
    · exact ⟨by omega, by omega⟩
    · obtain ⟨hlt, hle⟩ := ih e he
      exact ⟨hlt, by omega⟩

/-- A stretch within the text is isolated, and the text keeps its length. -/
theorem FlatText.exists_isolate (flat : FlatText) (d : Document) {start stop : Nat}
    (kind : Directive.Kind) (hlt : start < stop) (hle : stop ≤ flat.size) :
    ∃ n flat' d', flat.isolate d start stop kind = some (n, flat', d') ∧ flat'.size = flat.size := by
  unfold FlatText.isolate
  have hcovered : ((flat.entries.drop start).take (stop - start)).length ≠ 0 := by
    rw [FlatText.size] at hle
    rw [List.length_take, List.length_drop]
    omega
  cases hc : (flat.entries.drop start).take (stop - start) with
  | nil =>
    rw [hc] at hcovered
    exact absurd rfl hcovered
  | cons first others =>
    simp only [if_neg (Nat.not_lt.mpr hle)]
    exact ⟨_, _, _, rfl, List.length_mapIdx ..⟩

/-- Every directive within the text gets a marker. -/
theorem directives_isolateAll (flat : FlatText) (d : Document) {ds : List Directive}
    (h : ∀ x ∈ ds, x.position < x.stop ∧ x.stop ≤ flat.size) :
    (isolateAll flat d ds).1.map Marker.directive = ds := by
  induction ds generalizing flat d with
  | nil => rfl
  | cons x ds ih =>
    obtain ⟨hlt, hle⟩ := h x (List.mem_cons_self ..)
    obtain ⟨n, flat', d', hisolate, hsize⟩ := flat.exists_isolate d x.kind hlt hle
    simp only [isolateAll, hisolate, List.map_cons]
    rw [ih flat' d' fun y hy => hsize ▸ h y (List.mem_cons_of_mem x hy)]

/-- The directives in a document are those that are found in its flattened text. -/
theorem directives_isolateDirectives (d : Document) (root : NodeId) :
    (isolateDirectives d root).1.map Marker.directive =
      Directive.findAll (FlatText.ofDocument d root).text := by
  refine directives_isolateAll _ d fun x hx => ?_
  have hbounds := bounds_of_cuts (cuts_findAll (FlatText.ofDocument d root).text) x hx
  rwa [Nat.zero_add, FlatText.text, String.toList_ofList, List.length_map] at hbounds

end WordTemplate
