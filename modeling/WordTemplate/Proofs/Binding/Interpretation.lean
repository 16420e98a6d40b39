import WordTemplate.Proofs.Binding.Filling
import WordTemplate.Proofs.Block.Validation
import WordTemplate.Proofs.Directive.Ignored

/-!
# Interpreting outlines

What a template comes to can be said of its text alone. `ModelBinding.interpret` goes through the outline of a
text and puts characters together: those outside of directives are copied, a variable stands for the lines of its
value, a block for the passages that are selected for each item, and an ignored region for the characters in it.

* `Framed.interpret_eq_ok_iff`: an outline is interpreted by filling in the placeholders outside of its blocks, and
  replacing the anchors of the blocks by what these come to.
-/

namespace WordTemplate

open Xml Forest Binding

/-! ## The interpreter -/

/-- The character that a part is. -/
def Part.char? : Part → Option Char
  | .char c => some c
  | .value _ | .keyword _ | .block _ | .passage _ => none

/-- The characters of an outline outside of all directives. -/
def plainText (P : Forest Part) : List Char :=
  P.toList.filterMap Part.char?

/-- An answer that a model gives or fails to give, as a result of processing. -/
def answered {α : Type} (result : Except Binding.Error α) : Except Error α :=
  result.mapError .binding

namespace Binding.ModelBinding

variable (b : ModelBinding)

/-- What the item with number `index` of `count` comes to, with the passages that `within` interprets. -/
def itemText (start : Directive) (within : Block.Selection → Scopes → Except WordTemplate.Error (List Char))
    (scopes : Scopes) (count index : Nat) : Except WordTemplate.Error (List Char) := do
  let item ← answered (b.item scopes start index)
  within (.item (index + 1 == count)) (scopes.push item)

/-- What a block comes to that is expanded as planned. -/
def plannedText (start : Directive) (within : Block.Selection → Scopes → Except WordTemplate.Error (List Char))
    (scopes : Scopes) : Expansion → Except WordTemplate.Error (List Char)
  | .branch choice => within (.branch choice) scopes
  | .repeated 0 => within .otherwise scopes
  | .repeated count => ((List.range count).mapM (b.itemText start within scopes count)).map List.flatten

/-- What a block comes to, with the passages that `within` interprets. -/
def blockText (start : Directive) (within : Block.Selection → Scopes → Except WordTemplate.Error (List Char))
    (scopes : Scopes) : Except WordTemplate.Error (List Char) := do
  b.plannedText start within scopes (← answered (b.plan scopes start))

/-- What a part comes to. Below it stands `inner`, which `within` interprets, and `selected` says which kinds of
passages are taken. -/
def partText (part : Part) (inner : Forest Part)
    (within : Block.Selection → Scopes → Except WordTemplate.Error (List Char))
    (selected : Directive.Kind → Bool) (scopes : Scopes) : Except WordTemplate.Error (List Char) :=
  match part with
  | .char c => .ok [c]
  | .value d => (answered (b.recover "" (b.render scopes d))).map Word.shownText
  | .keyword d =>
    if (Block.keywordLabel? d.expression).isSome then .ok [] else .error (.unknownKeyword d.expression)
  | .block d => if d.kind = .ignoreStart then .ok (plainText inner) else b.blockText d within scopes
  | .passage kind => if selected kind then within .all scopes else .ok []

/-- What an outline comes to. Of passages side by side those are taken that are selected; `i` is the place of the
first part. -/
def interpret : Forest Part → Nat → Block.Selection → Scopes → Except WordTemplate.Error (List Char)
  | .nil, _, _, _ => .ok []
  | .cons part inner rest, i, select, scopes =>
    joined (b.partText part inner (interpret inner 0) (select i) scopes) (interpret rest (i + 1) select scopes)

end Binding.ModelBinding

/-! ## Parts with anchors -/

/-- Whether there is a block of its own for a part. -/
def Part.isAnchored : Part → Bool
  | .keyword _ | .block _ | .passage _ => true
  | .char _ | .value _ => false

/-- What the parts at the top come to for which there are blocks. -/
def Binding.ModelBinding.blockTexts (b : ModelBinding) :
    Forest Part → Nat → Block.Selection → Scopes → List (Except WordTemplate.Error (List Char))
  | .nil, _, _, _ => []
  | .cons part inner rest, i, select, scopes =>
    (if part.isAnchored then [b.partText part inner (b.interpret inner 0) (select i) scopes] else []) ++
      blockTexts b rest (i + 1) select scopes

/-- Whether a variable is what its text is read as, and a passage is a section of a block. -/
def Part.IsRegular : Part → Prop
  | .value d => Directive.parse? d.text = some { d with position := 0 }
  | .passage kind => kind = .content ∨ kind.isSeparator = true
  | .char _ | .keyword _ | .block _ => True

/-- Whether this holds of all parts of an outline. -/
def IsRegular : Forest Part → Prop
  | .nil => True
  | .cons part inner rest => part.IsRegular ∧ IsRegular inner ∧ IsRegular rest

/-- The outline of a text is regular if its directives are what their texts are read as. -/
theorem Spells.isRegular {kind : Option Directive.Kind} {P : Forest Part} {ts : List Token} (h : Spells kind P ts)
    (hkind : ∀ k ∈ kind, k = .content ∨ k.isSeparator = true)
    (hts : ∀ d ∈ directivesOf ts, Directive.parse? d.text = some { d with position := 0 }) : IsRegular P := by
  have hnone : ∀ k ∈ (none : Option Directive.Kind), k = .content ∨ k.isSeparator = true := by simp
  induction h with
  | nil => trivial
  | char c _ ih => exact ⟨trivial, trivial, ih hnone hts⟩
  | value _ _ ih =>
    rw [directivesOf_directive, List.forall_mem_cons] at hts
    exact ⟨hts.1, trivial, ih hnone hts.2⟩
  | keyword _ _ ih =>
    rw [directivesOf_directive, List.forall_mem_cons] at hts
    exact ⟨trivial, trivial, ih hnone hts.2⟩
  | block _ _ _ _ _ ihm ih =>
    simp only [directivesOf_directive, directivesOf_append, List.forall_mem_cons, List.forall_mem_append] at hts
    exact ⟨trivial, ihm (by simp) hts.2.1, ih hnone hts.2.2.2⟩
  | last _ ih => exact ⟨hkind _ rfl, ih hnone hts, trivial⟩
  | more _ hnext _ ih ihs =>
    simp only [directivesOf_directive, directivesOf_append, List.forall_mem_cons, List.forall_mem_append] at hts
    exact ⟨hkind _ rfl, ih hnone hts.1, ihs (by simp [hnext]) hts.2.2⟩

section Chars

variable {b : ModelBinding} {s : List Char} {P : Forest Part} {i : Nat} {select : Block.Selection}
  {scopes : Scopes} {text : List Char}

theorem isRegular_chars : IsRegular (chars s P) ↔ IsRegular P := by
  induction s with
  | nil => exact Iff.rfl
  | cons c s ih => simpa [chars, IsRegular, Part.IsRegular] using ih

theorem ignoresPlain_chars : IgnoresPlain (chars s P) ↔ IgnoresPlain P := by
  induction s with
  | nil => exact Iff.rfl
  | cons c s ih => simpa [chars, IgnoresPlain, Part.isIgnored] using ih

theorem mem_toList_chars {q : Part} : q ∈ (chars s P).toList ↔ (∃ c ∈ s, q = .char c) ∨ q ∈ P.toList := by
  induction s with
  | nil => simp [chars]
  | cons c s ih =>
    rw [chars, List.foldr_cons, ← chars, toList, List.mem_cons]
    simp [toList, ih, or_assoc]

theorem blockTexts_chars :
    b.blockTexts (chars s P) i select scopes = b.blockTexts P (i + s.length) select scopes := by
  induction s generalizing i with
  | nil => rfl
  | cons c s ih =>
    rw [chars, List.foldr_cons, ← chars, ModelBinding.blockTexts, ih, List.length_cons,
      show i + 1 + s.length = i + (s.length + 1) by omega]
    rfl

theorem interpret_chars_eq_ok_iff : b.interpret (chars s P) i select scopes = .ok text ↔
    ∃ others, b.interpret P (i + s.length) select scopes = .ok others ∧ text = s ++ others := by
  induction s generalizing i text with
  | nil => simp [chars]
  | cons c s ih =>
    rw [chars, List.foldr_cons, ← chars, ModelBinding.interpret, joined_eq_ok_iff]
    simp only [ih, List.length_cons, show i + 1 + s.length = i + (s.length + 1) by omega]
    constructor
    · rintro ⟨u, v, hu, ⟨others, hothers, rfl⟩, rfl⟩
      cases hu
      exact ⟨others, hothers, by simp⟩
    · rintro ⟨others, hothers, rfl⟩
      exact ⟨[c], s ++ others, rfl, ⟨others, hothers, rfl⟩, by simp⟩

end Chars

section Framed

variable {content : Block.Template → Forest Label} {b : ModelBinding} {rank : Rank} {P : Forest Part}
  {T : Forest Block.Template} {ss ss' : List Sign} {i : Nat} {select : Block.Selection} {scopes : Scopes}
  {text : List Char} {texts : List (List Char)}

/-- What filling in makes of the text of a variable. -/
theorem fill_value {directive : Directive}
    (hparse : Directive.parse? directive.text = some { directive with position := 0 }) :
    (Sign.text [Directive.Kind.placeholder.name] directive.text).fill (b.renderText scopes) =
      (b.recover "" (b.render scopes directive)).map fun value =>
        (Word.valueLines value).map (Sign.text []) := by
  rw [Sign.fill, if_pos (by decide), ModelBinding.renderText, hparse]
  show Except.map _ (Except.map some (b.recover "" (b.render scopes directive))) = _
  cases b.recover "" (b.render scopes directive) <;> rfl

theorem fill_mark {kind : Directive.Kind} (hkind : kind ≠ .placeholder) (s : String) :
    (Sign.text [kind.name] s).fill (b.renderText scopes) = .ok [.text [kind.name] s] :=
  fill_of_isFilled (.inr ⟨kind, hkind, rfl⟩)

/-- After the placeholders of an outline have been filled in there are none. -/
theorem Framed.isFilled (h : Framed content rank P T ss) (hP : IsRegular P)
    (hfill : fillSigns (b.renderText scopes) ss = .ok ss') : ∀ s ∈ ss', s.IsFilled := by
  have cons : ∀ {s : Sign} {ss ss' : List Sign}, s.IsFilled →
      (∀ ss', fillSigns (b.renderText scopes) ss = .ok ss' → ∀ s ∈ ss', s.IsFilled) →
      fillSigns (b.renderText scopes) (s :: ss) = .ok ss' → ∀ s ∈ ss', s.IsFilled := by
    intro s ss ss' hs ih hfill
    obtain ⟨u, v, hu, hv, rfl⟩ := joined_eq_ok_iff.mp hfill
    rw [fill_of_isFilled hs] at hu
    cases hu
    exact List.forall_mem_cons.mpr ⟨hs, ih v hv⟩
  have anchor : ∀ id, (Sign.anchor id).IsFilled := fun _ => trivial
  induction h generalizing ss' with
  | nil =>
    cases hfill
    simp
  | @text s _ _ _ _ ih =>
    exact cons (show (Sign.text [] s).IsFilled from .inl rfl) (fun _ => ih (isRegular_chars.mp hP)) hfill
  | @value directive _ _ _ hkind _ ih =>
    obtain ⟨u, v, hu, hv, rfl⟩ := joined_eq_ok_iff.mp hfill
    rw [fill_value (hP.1)] at hu
    cases hvalue : b.recover "" (b.render scopes directive) with
    | error e =>
      rw [hvalue] at hu
      cases hu
    | ok value =>
      rw [hvalue] at hu
      cases hu
      rintro s hs
      rcases List.mem_append.mp hs with hs | hs
      · obtain ⟨line, -, rfl⟩ := List.mem_map.mp hs
        exact .inl rfl
      · exact ih hP.2.2 hv s hs
  | @mark kind s _ _ _ _ hkind _ ih =>
    exact cons (show (Sign.text [kind.name] s).IsFilled from .inr ⟨kind, hkind, rfl⟩) (fun _ => ih hP) hfill
  | keyword _ _ ih => exact cons (anchor _) (fun _ => ih hP.2.2) hfill
  | block _ _ _ _ _ _ ih => exact cons (anchor _) (fun _ => ih hP.2.2) hfill
  | last => exact cons (anchor _) (fun _ h => by cases h; simp) hfill
  | more _ _ _ ih => exact cons (anchor _) (fun _ => ih hP.2.2) hfill

/-- An outline is interpreted by filling in its placeholders and replacing the anchors of its blocks. -/
theorem Framed.interpret_eq_ok_iff (h : Framed content rank P T ss) (hP : IsRegular P) :
    b.interpret P i select scopes = .ok text ↔ ∃ ss' texts, fillSigns (b.renderText scopes) ss = .ok ss' ∧
      b.blockTexts P i select scopes = texts.map .ok ∧ text = weave ss' texts := by
  -- A block comes to the first of the texts.
  have anchor : ∀ {part : Part} {inner P : Forest Part} {id : String} {ss : List Sign} {i : Nat} {text : List Char},
      part.isAnchored = true → (∀ text, b.interpret P (i + 1) select scopes = .ok text ↔
        ∃ ss' texts, fillSigns (b.renderText scopes) ss = .ok ss' ∧
          b.blockTexts P (i + 1) select scopes = texts.map .ok ∧ text = weave ss' texts) →
      (b.interpret (cons part inner P) i select scopes = .ok text ↔
        ∃ ss' texts, fillSigns (b.renderText scopes) (.anchor id :: ss) = .ok ss' ∧
          b.blockTexts (cons part inner P) i select scopes = texts.map .ok ∧ text = weave ss' texts) := by
    intro part inner P id ss i text hpart ih
    rw [ModelBinding.interpret, ModelBinding.blockTexts, if_pos hpart, joined_eq_ok_iff]
    constructor
    · rintro ⟨u, v, hu, hv, rfl⟩
      obtain ⟨ss', texts, hfill, htexts, rfl⟩ := (ih v).mp hv
      exact ⟨.anchor id :: ss', u :: texts, joined_eq_ok_iff.mpr ⟨_, _, rfl, hfill, rfl⟩, by simp [hu, htexts], rfl⟩
    · rintro ⟨ss', texts, hfill, htexts, rfl⟩
      obtain ⟨u, v, hu, hv, rfl⟩ := joined_eq_ok_iff.mp hfill
      cases hu
      cases texts with
      | nil => simp at htexts
      | cons text texts =>
        simp only [List.singleton_append, List.map_cons, List.cons.injEq] at htexts
        exact ⟨text, weave v texts, htexts.1, (ih _).mpr ⟨v, texts, hv, htexts.2, rfl⟩, rfl⟩
  induction h generalizing i text with
  | nil =>
    constructor
    · rintro h
      cases h
      exact ⟨[], [], rfl, rfl, rfl⟩
    · rintro ⟨ss', texts, hfill, -, rfl⟩
      cases hfill
      rfl
  | @text s P T ss _ ih =>
    simp only [interpret_chars_eq_ok_iff, blockTexts_chars, ih (isRegular_chars.mp hP)]
    constructor
    · rintro ⟨others, ⟨ss', texts, hfill, htexts, rfl⟩, rfl⟩
      exact ⟨.text [] s :: ss', texts, joined_eq_ok_iff.mpr ⟨_, _, rfl, hfill, rfl⟩, htexts, rfl⟩
    · rintro ⟨ss', texts, hfill, htexts, rfl⟩
      obtain ⟨u, v, hu, hv, rfl⟩ := joined_eq_ok_iff.mp hfill
      cases hu
      exact ⟨_, ⟨v, texts, hv, htexts, rfl⟩, rfl⟩
  | @value directive P T ss _ _ ih =>
    have hfillOne : (Sign.text [Directive.Kind.placeholder.name] directive.text).fill (b.renderText scopes) =
        (b.recover "" (b.render scopes directive)).map fun value => (Word.valueLines value).map (Sign.text []) :=
      fill_value hP.1
    simp only [ModelBinding.interpret, ModelBinding.blockTexts, ModelBinding.partText, Part.isAnchored,
      joined_eq_ok_iff, ih hP.2.2, fillSigns, hfillOne]
    cases hvalue : b.recover "" (b.render scopes directive) with
    | error e => simp [answered, Except.map, Except.mapError]
    | ok value =>
      have hshown : ∀ v texts, weave ((Word.valueLines value).map (Sign.text []) ++ v) texts =
          Word.shownText value ++ weave v texts := by
        intro v texts
        rw [weave_append, shown_map_text, Word.shownText]
        rw [anchorIds, List.filterMap_eq_nil_iff]
        simp [Sign.anchorId?]
      constructor
      · rintro ⟨u, v, hu, ⟨ss', texts, hfill, htexts, rfl⟩, rfl⟩
        cases hu
        exact ⟨_, texts, ⟨_, ss', rfl, hfill, rfl⟩, htexts, (hshown ss' texts).symm⟩
      · rintro ⟨ss', texts, ⟨u, v, hu, hv, rfl⟩, htexts, rfl⟩
        cases hu
        exact ⟨_, _, rfl, ⟨v, texts, hv, htexts, rfl⟩, hshown v texts⟩
  | @mark kind s rank P T ss hkind _ ih =>
    refine (ih hP).trans ?_
    have hnone : (Sign.text [kind.name] s).shown = [] := by simp [Sign.shown]
    constructor
    · rintro ⟨ss', texts, hfill, htexts, rfl⟩
      refine ⟨_, texts, joined_eq_ok_iff.mpr ⟨_, _, fill_mark hkind s, hfill, rfl⟩, htexts, ?_⟩
      rw [List.singleton_append, weave, hnone, List.nil_append]
    · rintro ⟨ss', texts, hfill, htexts, rfl⟩
      obtain ⟨u, v, hu, hv, rfl⟩ := joined_eq_ok_iff.mp hfill
      rw [fill_mark hkind] at hu
      cases hu
      refine ⟨v, texts, hv, htexts, ?_⟩
      rw [List.singleton_append, weave, hnone, List.nil_append]
  | keyword _ _ ih => exact anchor rfl fun _ => ih hP.2.2
  | block _ _ _ _ _ _ ih => exact anchor rfl fun _ => ih hP.2.2
  | last =>
    refine @anchor _ _ _ _ [] _ _ rfl fun text => ?_
    constructor
    · rintro h
      cases h
      exact ⟨[], [], rfl, rfl, rfl⟩
    · rintro ⟨ss', texts, hfill, -, rfl⟩
      cases hfill
      rfl
  | more _ _ _ ih => exact anchor rfl fun _ => ih hP.2.2

end Framed

end WordTemplate
