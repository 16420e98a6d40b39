import WordTemplate.Proofs.Block.Outline

/-!
# Reading blocks

The directives of a text are nested by a machine with a stack of open blocks. If it accepts them,
the blocks have an outline, which stands for the tokens of the text and is laid out in the
landmarks of the document: `nest_spec`.

The invariant of the machine says for every open block how its remaining passages complete it
(`Begun`), and for the whole stack what stands below each open block (`Progressed`).
-/

namespace WordTemplate

open Xml Forest

/-- How the landmarks of a document in which every directive has a text element of its own show a
text. -/
inductive Reads : List Landmark → List Token → List Marker → Prop where
  | nil : Reads [] [] []
  | text {x : Landmark} {s : String} {ls : List Landmark} {ts : List Token} {ms : List Marker} :
      x.sign = .text [] s → Reads ls ts ms → Reads (x :: ls) (s.toList.map .char ++ ts) ms
  | directive {x : Landmark} {m : Marker} {ls : List Landmark} {ts : List Token}
      {ms : List Marker} : x.Shows m → m.directive.kind ≠ .content → Reads ls ts ms →
      Reads (x :: ls) (.directive m.directive :: ts) (m :: ms)

/-- Whether an outline of blocks side by side is laid out in landmarks and stands for tokens. -/
structure Laid (P : Forest Part) (B : Forest Block) (ls : List Landmark) (ts : List Token) :
    Prop where
  layout : Layout .level P B ls
  spells : Spells none P ts

section Append

variable {P P' : Forest Part} {B B' : Forest Block} {ls ls' : List Landmark} {ts ts' : List Token}

theorem Layout.append (h : Layout .level P B ls) (h' : Layout .level P' B' ls') :
    Layout .level (P ++ P') (B ++ B') (ls ++ ls') := by
  generalize hr : Role.level = role at h
  induction h with
  | nil => exact h'
  | text hx _ ih =>
    rw [chars_append]
    exact .text hx (ih hr)
  | value hx hk _ ih => exact .value hx hk (ih hr)
  | keyword hx hk _ ih => exact .keyword hx hk (ih hr)
  | block hs he h₁ h₂ h₃ hm _ _ ih =>
    rw [cons_append, cons_append, List.cons_append, List.append_assoc, List.cons_append]
    exact .block hs he h₁ h₂ h₃ hm (ih hr)
  | last => cases hr
  | more => cases hr

theorem Laid.append (h : Laid P B ls ts) (h' : Laid P' B' ls' ts') :
    Laid (P ++ P') (B ++ B') (ls ++ ls') (ts ++ ts') :=
  ⟨h.layout.append h'.layout, h.spells.append h'.spells⟩

theorem laid_nil : Laid nil nil [] [] :=
  ⟨.nil, .nil⟩

end Append

namespace Forest

theorem ofTrees_append {α : Type} (ts us : List (α × Forest α)) :
    ofTrees (ts ++ us) = ofTrees ts ++ ofTrees us := by
  induction ts with
  | nil => rfl
  | cons t ts ih =>
    obtain ⟨a, cs⟩ := t
    rw [List.cons_append, ofTrees, ih]
    rfl

/-- Trees in the opposite order, with one more. -/
theorem ofTrees_reverse_cons {α : Type} (t : α × Forest α) (ts : List (α × Forest α)) :
    ofTrees (t :: ts).reverse = ofTrees ts.reverse ++ tree t.1 t.2 := by
  rw [List.reverse_cons, ofTrees_append]
  rfl

end Forest

namespace Block

/-- Whether what follows the start of an open block begins it: its current section is laid out, and
any passages from there on complete the block. -/
def Begun (o : Opened) (ls : List Landmark) (ts : List Token) : Prop :=
  ∃ PS ls₁ ts₁ P ls₂ ts₂, ls = ls₁ ++ ls₂ ∧ ts = ts₁ ++ ts₂ ∧
    Laid P (ofTrees o.inner.reverse) ls₂ ts₂ ∧
    ∀ stop PS' BS rest us, Layout (.passages o.sectionKind o.sectionStart stop) PS' BS rest →
      Spells (some o.sectionKind) PS' us →
      Layout (.passages .content o.start stop) (PS ++ PS') (ofTrees o.sections.reverse ++ BS)
          (ls₁ ++ rest) ∧ Spells (some .content) (PS ++ PS') (ts₁ ++ us)

/-- Whether landmarks and tokens are what has been read when the given blocks are complete and
open. -/
def Progressed (roots : List Built) : List Opened → List Landmark → List Token → Prop
  | [], ls, ts => ∃ P, Laid P (ofTrees roots.reverse) ls ts
  | o :: outer, ls, ts => ∃ ls₁ ts₁ x ls₂ ts₂, ls = ls₁ ++ x :: ls₂ ∧
      ts = ts₁ ++ .directive o.start.directive :: ts₂ ∧ x.Shows o.start ∧
      o.kind = o.start.directive.kind ∧ o.kind.isBlockStart = true ∧ o.kind ≠ .inlineKeyword ∧
      Progressed roots outer ls₁ ts₁ ∧ Begun o ls₂ ts₂

section Machine

variable {roots : List Built} {opened : List Opened} {o : Opened} {m : Marker} {x : Landmark}
  {P : Forest Part} {b : Built} {ls ls' : List Landmark} {ts ts' : List Token}

theorem Begun.begin (m : Marker) : Begun (.begin m) [] [] :=
  ⟨nil, [], [], nil, [], [], rfl, rfl, laid_nil, fun _ _ _ _ _ h h' => ⟨h, h'⟩⟩

theorem Begun.text (h : Begun o ls ts) (hP : Laid P nil ls' ts') :
    Begun o (ls ++ ls') (ts ++ ts') := by
  obtain ⟨PS, ls₁, ts₁, P', ls₂, ts₂, rfl, rfl, hP', hrest⟩ := h
  refine ⟨PS, ls₁, ts₁, P' ++ P, ls₂ ++ ls', ts₂ ++ ts', by simp, by simp, ?_, hrest⟩
  have := hP'.append hP
  rwa [append_nil] at this

theorem Begun.add (h : Begun o ls ts) (hP : Laid P (tree b.1 b.2) ls' ts') :
    Begun (o.add b) (ls ++ ls') (ts ++ ts') := by
  obtain ⟨PS, ls₁, ts₁, P', ls₂, ts₂, rfl, rfl, hP', hrest⟩ := h
  refine ⟨PS, ls₁, ts₁, P' ++ P, ls₂ ++ ls', ts₂ ++ ts', by simp, by simp, ?_, hrest⟩
  rw [Opened.add, ofTrees_reverse_cons]
  exact hP'.append hP

/-- A separator ends the current section and begins another one. -/
theorem Begun.separate (h : Begun o ls ts) (hx : x.Shows m)
    (hm : m.directive.kind.isSeparator = true) :
    Begun (o.separate m) (ls ++ [x]) (ts ++ [.directive m.directive]) := by
  obtain ⟨PS, ls₁, ts₁, P, ls₂, ts₂, rfl, rfl, hP, hrest⟩ := h
  have hne : m.directive.kind ≠ .placeholder := by
    intro hk
    rw [hk] at hm
    cases hm
  refine ⟨PS ++ tree (.passage o.sectionKind) P, ls₁ ++ (ls₂ ++ [x]),
    ts₁ ++ (ts₂ ++ [.directive m.directive]), nil, [], [], by simp, by simp, laid_nil, ?_⟩
  intro stop PS' BS rest us hPS hus
  have := hrest stop _ _ _ _ (.more hP.layout hx hne hPS) (.more hP.spells hm hus)
  simp only [Opened.separate, ofTrees_reverse_cons, Forest.append_assoc, List.append_assoc,
    List.cons_append, List.nil_append]
  exact this

/-- The end of a block completes it. -/
theorem Begun.close {s : Landmark} (h : Begun o ls ts) (hs : s.Shows o.start)
    (hkind : o.kind = o.start.directive.kind) (hstart : o.kind.isBlockStart = true)
    (hkeyword : o.kind ≠ .inlineKeyword) (hx : x.Shows m)
    (hm : m.directive.kind.isBlockEnd = true) :
    ∃ P, Laid P (tree (o.close m).1 (o.close m).2) (s :: (ls ++ [x]))
      (.directive o.start.directive :: (ts ++ [.directive m.directive])) := by
  obtain ⟨PS, ls₁, ts₁, P, ls₂, ts₂, rfl, rfl, hP, hrest⟩ := h
  have hne : m.directive.kind ≠ .placeholder := by
    intro hk
    rw [hk] at hm
    cases hm
  obtain ⟨hlayout, hspells⟩ := hrest m _ _ _ _ (.last hP.layout) (.last hP.spells)
  rw [hkind] at hstart hkeyword
  refine ⟨tree (.block o.start.directive) (PS ++ tree (.passage o.sectionKind) P), ?_, ?_⟩
  · have := Layout.block hs hx hstart hkeyword hne hlayout .nil
    rw [Opened.close, ofTrees_reverse_cons, hkind]
    exact this
  · exact .block hstart hkeyword hm hspells .nil

theorem Progressed.text (h : Progressed roots opened ls ts) (hP : Laid P nil ls' ts') :
    Progressed roots opened (ls ++ ls') (ts ++ ts') := by
  cases opened with
  | nil =>
    obtain ⟨P', hP'⟩ := h
    have := hP'.append hP
    rw [append_nil] at this
    exact ⟨_, this⟩
  | cons o outer =>
    obtain ⟨ls₁, ts₁, x, ls₂, ts₂, rfl, rfl, hx, h₁, h₂, h₃, houter, hb⟩ := h
    exact ⟨ls₁, ts₁, x, ls₂ ++ ls', ts₂ ++ ts', by simp, by simp, hx, h₁, h₂, h₃, houter, hb.text hP⟩

theorem Progressed.add {p : Progress} (h : Progressed p.roots p.opened ls ts)
    (hP : Laid P (tree b.1 b.2) ls' ts') :
    Progressed (p.add b).roots (p.add b).opened (ls ++ ls') (ts ++ ts') := by
  obtain ⟨roots, opened⟩ := p
  cases opened with
  | nil =>
    obtain ⟨P', hP'⟩ := h
    refine ⟨P' ++ P, ?_⟩
    simp only [Progress.add, ofTrees_reverse_cons]
    exact hP'.append hP
  | cons o outer =>
    obtain ⟨ls₁, ts₁, x, ls₂, ts₂, rfl, rfl, hx, h₁, h₂, h₃, houter, hb⟩ := h
    exact ⟨ls₁, ts₁, x, ls₂ ++ ls', ts₂ ++ ts', by simp, by simp [Opened.add], hx, h₁, h₂, h₃, houter,
      hb.add hP⟩

/-- One step of the machine. -/
theorem Progressed.feed {p p' : Progress} (h : Progressed p.roots p.opened ls ts) (hx : x.Shows m)
    (hm : m.directive.kind ≠ .content) (hp : p.feed m = .ok p') :
    Progressed p'.roots p'.opened (ls ++ [x]) (ts ++ [.directive m.directive]) := by
  simp only [Progress.feed] at hp
  by_cases hkeyword : m.directive.kind = .inlineKeyword
  · rw [if_pos hkeyword] at hp
    cases hp
    have hP : Laid (tree (.keyword m.directive) nil) (tree ⟨m.directive.kind, m, m⟩ nil) [x]
        [.directive m.directive] := by
      rw [hkeyword]
      exact ⟨.keyword hx hkeyword .nil, .keyword hkeyword .nil⟩
    exact h.add (b := (⟨m.directive.kind, m, m⟩, nil)) hP
  rw [if_neg hkeyword] at hp
  by_cases hstart : m.directive.kind.isBlockStart = true
  · rw [if_pos hstart] at hp
    cases hp
    exact ⟨ls, ts, x, [], [], rfl, rfl, hx, rfl, hstart, hkeyword, h, .begin m⟩
  rw [if_neg hstart] at hp
  by_cases hsep : m.directive.kind.isSeparator = true
  · rw [if_pos hsep] at hp
    cases ho : p.opened with
    | nil =>
      rw [ho] at hp
      cases hp
    | cons o outer =>
      rw [ho] at hp h
      cases hp
      obtain ⟨ls₁, ts₁, s, ls₂, ts₂, rfl, rfl, hs, h₁, h₂, h₃, houter, hb⟩ := h
      exact ⟨ls₁, ts₁, s, ls₂ ++ [x], ts₂ ++ [.directive m.directive], by simp,
        by simp [Opened.separate], hs, h₁, h₂, h₃, houter, hb.separate hx hsep⟩
  rw [if_neg hsep] at hp
  by_cases hend : m.directive.kind.isBlockEnd = true
  · rw [if_pos hend] at hp
    cases ho : p.opened with
    | nil =>
      rw [ho] at hp
      cases hp
    | cons o outer =>
      rw [ho] at hp h
      cases hp
      obtain ⟨ls₁, ts₁, s, ls₂, ts₂, rfl, rfl, hs, h₁, h₂, h₃, houter, hb⟩ := h
      obtain ⟨P, hP⟩ := hb.close hs h₁ h₂ h₃ hx hend
      have := Progressed.add (p := { p with opened := outer }) houter hP
      simpa using this
  · rw [if_neg hend] at hp
    cases hp
    have hk : m.directive.kind = .placeholder := by
      generalize m.directive.kind = kind at *
      cases kind <;> simp [Directive.Kind.isBlockStart, Directive.Kind.isSeparator,
        Directive.Kind.isBlockEnd] at *
    have hP : Laid (tree (.value m.directive) nil) nil [x] [.directive m.directive] :=
      ⟨.value hx hk .nil, .value hk .nil⟩
    exact h.text hP

/-- What the machine makes of all directives. -/
theorem Progressed.run {ms : List Marker} {p : Progress} {B : Forest Block}
    (h : Progressed p.roots p.opened ls ts) (hr : Reads ls' ts' ms)
    (hB : (ms.foldlM Progress.feed p).bind Progress.finish = .ok B) :
    ∃ P, Laid P B (ls ++ ls') (ts ++ ts') := by
  induction hr generalizing p ls ts with
  | nil =>
    simp only [List.foldlM_nil, pure, Except.pure, Except.bind, Progress.finish] at hB
    split at hB
    · next hopened =>
      cases hB
      rw [List.isEmpty_iff] at hopened
      rw [hopened] at h
      rw [List.append_nil, List.append_nil]
      exact h
    · cases hB
  | @text x s ls' ts' ms hx _ ih =>
    have hP : Laid (chars s.toList nil) nil [x] (s.toList.map .char) :=
      ⟨.text hx .nil, by simpa using Spells.nil.chars s.toList⟩
    have := ih (h.text hP) hB
    simpa using this
  | @directive x m ls' ts' ms hx hm _ ih =>
    rw [List.foldlM_cons] at hB
    cases hp : p.feed m with
    | error e =>
      rw [hp] at hB
      cases hB
    | ok p' =>
      rw [hp] at hB
      have := ih (h.feed hx hm hp) hB
      simpa using this

/-- If the directives of a text can be nested, the blocks have an outline. -/
theorem nest_spec {ms : List Marker} {B : Forest Block} (hr : Reads ls ts ms)
    (hB : nest ms = .ok B) : ∃ P, Layout .level P B ls ∧ Spells none P ts := by
  have h : Progressed [] [] [] [] := ⟨nil, laid_nil⟩
  obtain ⟨P, hP⟩ := Progressed.run (p := ⟨[], []⟩) h hr hB
  exact ⟨P, hP.layout, hP.spells⟩

end Machine

end Block

end WordTemplate
