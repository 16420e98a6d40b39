import WordTemplate.Proofs.Binding.Interpretation
import WordTemplate.Proofs.Binding.Session
import WordTemplate.Proofs.Processing.Placeholders

/-!
# Expanding blocks as interpretation

With a model, a block is expanded to what the interpretation of its outline puts together. Each fragment is
filled in and its blocks expanded in their turn, so what it shows in the end is the interpretation of a passage.
If blank paragraphs are stripped meanwhile, that is so of the characters that are `visible`.

* `Framed.runs_fillFragment`: a scope with an outline, such as a fragment for the content of a block.
* `runs_cons`: one block, and then those behind it.
* `Framed.runs_expandAll`: the blocks of an outline.
-/

namespace WordTemplate

open Xml Forest Binding

/-! ## Results -/

/-- Whether a result is a failure. -/
def Fails {ε α : Type} (result : Except ε α) : Prop :=
  ∀ a, result ≠ .ok a

/-- Whether there is a failure among results. -/
def SomeFails {ε α : Type} (results : List (Except ε α)) : Prop :=
  ∀ l : List α, results ≠ l.map .ok

theorem fails_error {ε α : Type} (e : ε) : Fails (.error e : Except ε α) :=
  fun _ h => by cases h

theorem someFails_cons {ε α : Type} {result : Except ε α} {results : List (Except ε α)}
    (h : Fails result ∨ SomeFails results) : SomeFails (result :: results) := by
  rintro (_ | ⟨a, l⟩) he
  · cases he
  · obtain ⟨ha, hl⟩ := List.cons.inj he
    exact h.elim (· a ha) (· l hl)

theorem mapM_eq_ok_iff {ε α β : Type} {f : α → Except ε β} {l : List α} {bs : List β} :
    l.mapM f = .ok bs ↔ l.map f = bs.map .ok := by
  induction l generalizing bs with
  | nil =>
    rw [List.mapM_nil, List.map_nil, List.nil_eq, List.map_eq_nil_iff]
    exact ⟨fun h => by cases h; rfl, fun h => by rw [h]; rfl⟩
  | cons a l ih =>
    rw [List.mapM_cons]
    cases ha : f a with
    | error e => cases bs <;> simp [ha, bind, Except.bind]
    | ok b =>
      cases hl : l.mapM f with
      | error e =>
        have hnot : ∀ bs : List β, l.map f ≠ bs.map .ok := fun bs hbs => by
          rw [← ih, hl] at hbs
          cases hbs
        cases bs <;> simp [ha, hnot, bind, Except.bind]
      | ok bs' =>
        have hl' := ih.mp hl
        have hinj : ∀ bs : List β, bs'.map (.ok : β → Except ε β) = bs.map .ok ↔ bs' = bs := fun bs =>
          (List.map_injective_iff.mpr fun _ _ h => by cases h; rfl).eq_iff
        cases bs <;> simp [ha, hl', hinj, bind, Except.bind, pure, Except.pure]

/-! ## Interpreting what is in an ignored region -/

section Interpretation

variable {content : Block.Template → Forest Label} {b : ModelBinding} {rank : Rank} {P : Forest Part}
  {T : Forest Block.Template} {ss : List Sign} {i : Nat} {scopes : Scopes}

/-- If there is nothing but characters, all of them are copied. -/
theorem Framed.interpret_of_isPlain (h : Framed content rank P T ss)
    (hP : ∀ q ∈ P.toList, q.isPlain = true) : b.interpret P i .all scopes = .ok (plainText P) := by
  induction h generalizing i with
  | nil => rfl
  | @text s P _ _ _ ih =>
    rw [interpret_chars_eq_ok_iff]
    refine ⟨_, ih fun q hq => hP q (mem_toList_chars.mpr (.inr hq)), ?_⟩
    induction s.toList with
    | nil => rfl
    | cons c s ih => exact congrArg (c :: ·) ih
  | value => cases hP _ (List.mem_cons_self ..)
  | mark _ _ ih => exact ih hP
  | keyword => cases hP _ (List.mem_cons_self ..)
  | block => cases hP _ (List.mem_cons_self ..)
  | @last t P _ _ ih =>
    have hpassage := ih (i := 0) fun q hq => hP q (by simp [tree, toList, hq])
    refine joined_eq_ok_iff.mpr ⟨_, _, hpassage, rfl, ?_⟩
    simp [plainText, tree, toList, List.filterMap_cons, Part.char?]
  | @more t P PS _ _ _ _ _ ih ihs =>
    have hpassage := ih (i := 0) fun q hq => hP q (by simp [toList, hq])
    refine joined_eq_ok_iff.mpr ⟨_, _, hpassage, ihs fun q hq => hP q (by simp [toList, hq]), ?_⟩
    simp [plainText, toList, List.filterMap_cons, Part.char?]

/-- In a framed outline no text has more than one mark. -/
theorem Framed.isTidy (h : Framed content rank P T ss) : ∀ s ∈ ss, s.IsTidy := by
  induction h with
  | nil => simp
  | text _ ih | value _ _ ih | mark _ _ ih => exact List.forall_mem_cons.mpr ⟨rfl, ih⟩
  | keyword _ _ ih | block _ _ _ _ _ _ ih | more _ _ _ ih => exact List.forall_mem_cons.mpr ⟨trivial, ih⟩
  | last => exact List.forall_mem_cons.mpr ⟨trivial, by simp⟩

end Interpretation

/-! ## Scopes in which blocks are expanded -/

section Scopes

variable {content : Block.Template → Forest Label} {b : ModelBinding} {rank : Rank} {P : Forest Part}
  {T TS : Forest Block.Template} {t : Block.Template} {mute : List String} {ss₀ ss : List Sign} {i j : Nat}
  {select : Block.Selection} {strip verbatim : Bool} {w : Workspace Scopes} {scope : NodeId}
  {result : Except Error (List Char)} {results : List (Except Error (List Char))}

/-- Whether a scope shows `ss`: the anchors of the blocks `T`, and no placeholder that is to be filled in. -/
structure Awaits (mute : List String) (content : Block.Template → Forest Label) (w : Workspace Scopes)
    (scope : NodeId) (T : Forest Block.Template) (ss : List Sign) : Prop where
  isScoped : Scoped w.document scope mute ss
  anchorIds_eq : anchorIds ss = rootIds T
  isFilled : ∀ s ∈ ss, s.IsFilled
  holds : Holds w.document scope content T

/-- Whether a scope that showed `ss` shows what blocks come to in place of their anchors. -/
structure Woven (strip : Bool) (mute : List String) (w : Workspace Scopes) (scope : NodeId) (ss : List Sign)
    (results : List (Except Error (List Char))) (w' : Workspace Scopes) : Prop where
  within : w.document.Within w'.document scope
  state_eq : w'.state = w.state
  exists_texts : ∃ ss' texts, Scoped w'.document scope mute ss' ∧ anchorIds ss' = [] ∧
    (∀ s ∈ ss', s.IsFilled) ∧ results = texts.map .ok ∧ visible strip (shown ss') = visible strip (weave ss texts)

/-- Whether trees that were made with the scopes `s₀` show what a part comes to. -/
structure Rendered (strip : Bool) (mute : List String) (s₀ : Scopes) (result : Except Error (List Char))
    (f : Forest Label) (s : Scopes) : Prop where
  sound : Sound mute f
  state_eq : s = s₀
  isFilled : ∀ sign ∈ signs f, sign.IsFilled
  anchorIds_eq : anchorIds (signs f) = []
  exists_text : ∃ text, result = .ok text ∧ visible strip (shown (signs f)) = visible strip text

theorem rendered_of_quiet {f : Forest Label} (s : Scopes) (hf : Quiet f) (hresult : result = .ok []) :
    Rendered strip mute s result f s := by
  have hsigns := signs_eq_nil_of_quiet hf
  exact ⟨.of_quiet hf, rfl, by simp [hsigns], by simp [hsigns], [], hresult, by rw [hsigns, shown_nil]⟩

/-- Whether a scope shows what an outline comes to. -/
structure RenderedAt (strip : Bool) (mute : List String) (w : Workspace Scopes) (scope : NodeId)
    (result : Except Error (List Char)) (w' : Workspace Scopes) : Prop where
  within : w.document.Within w'.document scope
  state_eq : w'.state = w.state
  exists_signs : ∃ ss text, Scoped w'.document scope mute ss ∧ anchorIds ss = [] ∧ (∀ s ∈ ss, s.IsFilled) ∧
    result = .ok text ∧ visible strip (shown ss) = visible strip text

/-- A scope shows the interpretation of its outline after its placeholders have been filled in and its blocks
expanded. -/
theorem Framed.runs_fillFragment (h : Framed content rank P T ss) (hP : IsRegular P) (htext : Word.text ∉ mute)
    (hS : Scoped w.document scope mute ss) (hT : Holds w.document scope content T)
    (hverbatim : verbatim = true → ∀ q ∈ P.toList, q.isPlain = true)
    (ih : ∀ {w : Workspace Scopes} {scope : NodeId} {ss : List Sign}, Awaits mute content w scope T ss →
      Runs (expandAllVia resolveOnly strip b.driver T 0 select scope verbatim) w
        (fun _ => Woven strip mute w scope ss (b.blockTexts P 0 select w.state))
        fun _ _ => SomeFails (b.blockTexts P 0 select w.state)) :
    Runs (fillFragment b.driver (expandAllVia resolveOnly strip b.driver T 0) select verbatim scope) w
      (fun _ => RenderedAt strip mute w scope (b.interpret P 0 select w.state))
      fun _ _ => Fails (b.interpret P 0 select w.state) := by
  have wf := hS.wellFormed
  -- The blocks of the scope, after its placeholders have been filled in.
  have hrest : ∀ {w' : Workspace Scopes} {ss' : List Sign}, w.document.Within w'.document scope →
      w'.state = w.state → Scoped w'.document scope mute ss' →
      fillSigns (b.renderText w.state) ss = .ok ss' →
      Runs (expandAllVia resolveOnly strip b.driver T 0 select scope verbatim) w'
        (fun _ => RenderedAt strip mute w scope (b.interpret P 0 select w.state))
        fun _ _ => Fails (b.interpret P 0 select w.state) := by
    intro w' ss' hw hstate hS' hfill
    have hA : Awaits mute content w' scope T ss' :=
      ⟨hS', (anchorIds_fillSigns hfill).trans h.anchorIds_eq, h.isFilled hP hfill, hT.within hw wf⟩
    refine (ih hA).mono ?_ fun e w₂ he text htext => ?_
    · rintro - w₂ hwoven
      obtain ⟨ss₂, texts, hS₂, hids, hfilled, htexts, hshown⟩ := hwoven.exists_texts
      rw [hstate] at htexts
      exact ⟨hw.trans hwoven.within wf, hwoven.state_eq.trans hstate, ss₂, _, hS₂, hids, hfilled,
        (h.interpret_eq_ok_iff hP).mpr ⟨ss', texts, hfill, htexts, rfl⟩, hshown⟩
    · obtain ⟨-, texts, -, htexts, -⟩ := (h.interpret_eq_ok_iff hP).mp htext
      rw [hstate] at he
      exact he texts htexts
  unfold fillFragment
  cases verbatim with
  | true => exact hrest (.refl wf) rfl hS (fillSigns_of_forall (h.noPlaceholder (hverbatim rfl)).1)
  | false =>
    refine Runs.bind (E := fun _ _ => Fails (b.interpret P 0 select w.state))
      (Q := fun _ w₁ => w.document.Within w₁.document scope ∧ w₁.state = w.state ∧
        ∃ ss', Scoped w₁.document scope mute ss' ∧ fillSigns (b.renderText w.state) ss = .ok ss') ?_ ?_
    · refine ((runs_substitute b htext hS h.isTidy).mono (fun _ _ h => h) fun e w' he text htext => ?_).ask
      obtain ⟨ss', -, hfill, -⟩ := (h.interpret_eq_ok_iff hP).mp htext
      rw [he] at hfill
      cases hfill
    · rintro - w₁ ⟨hw, hstate, ss', hS', hfill⟩
      exact hrest hw hstate hS' hfill

/-- A fragment for the content of a block shows the interpretation of the outline of the content. -/
theorem Framed.fills (h : Framed content rank P T (signs (content t))) (hP : IsRegular P)
    (hfragment : Word.fragment ∉ mute) (htext : Word.text ∉ mute) (hsound : Sound mute (content t))
    (hverbatim : verbatim = true → ∀ q ∈ P.toList, q.isPlain = true) {s : Scopes}
    {R : Forest Label → Scopes → Prop} {E : Error → Workspace Scopes → Prop}
    (ih : ∀ {w : Workspace Scopes} {scope : NodeId} {ss : List Sign}, Awaits mute content w scope T ss →
      Runs (expandAllVia resolveOnly strip b.driver T 0 select scope verbatim) w
        (fun _ => Woven strip mute w scope ss (b.blockTexts P 0 select w.state))
        fun _ _ => SomeFails (b.blockTexts P 0 select w.state))
    (hE : ∀ e w, Fails (b.interpret P 0 select s) → E e w)
    (hR : ∀ f s', Rendered strip mute s (b.interpret P 0 select s) f s' → R f s') :
    Fills b.driver (expandAllVia resolveOnly strip b.driver T 0) select verbatim content t T s R E := by
  rintro w φ f rfl wf hφ ht hf hT
  have hS := scoped_fragment wf hfragment hφ ht hf hsound
  refine (h.runs_fillFragment hP htext hS hT hverbatim ih).mono ?_ fun e w' he => hE e w' he
  rintro - w' hrendered
  obtain ⟨ss, text, hS', hids, hfilled, hresult⟩ := hrendered.exists_signs
  obtain ⟨node, g, ht', hl⟩ := hS'.exists_eq
  have hsigns : signs (labels g) = ss := by
    rw [← hS'.signs_eq, ht', labels_tree, signs_tree _ hl]
  have hsound' : Sound mute (labels g) := by
    have := hS'.sound
    rw [ht'] at this
    exact this.children
  exact ⟨hrendered.within, node, g, ht', hR _ _ ⟨hsound', hrendered.state_eq, hsigns ▸ hfilled, hsigns ▸ hids,
    text, hsigns ▸ hresult⟩⟩

/-- One block, which comes to `result`, and those behind it. -/
theorem runs_cons (hA : Awaits mute content w scope (cons t TS T) ss)
    (hnd : ((cons t TS T).toList.map (·.number)).Nodup)
    (hleft : select i t.kind = false → result = .ok [])
    (hbody : select i t.kind = true → ∀ n up left right, w.document.Cursor scope n up left right →
      Runs (expandBody b.driver (expandAllVia resolveOnly strip b.driver TS 0) t
          (verbatim || t.kind = .ignoreStart) n) w
        (fun _ => Filled w.document scope up left right (Rendered strip mute w.state result))
        fun _ _ => Fails result)
    (hrest : ∀ {w' : Workspace Scopes} {ss : List Sign}, w'.state = w.state →
      Awaits mute content w' scope T ss →
      Runs (expandAllVia resolveOnly strip b.driver T (i + 1) select scope verbatim) w'
        (fun _ => Woven strip mute w' scope ss results) fun _ _ => SomeFails results) :
    Runs (expandAllVia resolveOnly strip b.driver (cons t TS T) i select scope verbatim) w
      (fun _ => Woven strip mute w scope ss (result :: results)) fun _ _ => SomeFails (result :: results) := by
  have hS := hA.isScoped
  have wf := hS.wellFormed
  have hids := hA.anchorIds_eq
  rw [rootIds_cons] at hids
  have hroots : (t.anchor.id :: rootIds T).Nodup := nodup_anchorIds hnd
  have hends : Resolver.Ends (resolveOnly : Resolver Scopes) (fun _ => False) t scope w := by
    refine ends_resolveOnly hS ?_
    rw [hids, List.count_cons_self, List.count_eq_zero.mpr (List.nodup_cons.mp hroots).1]
  obtain ⟨-, -, hTout⟩ := holds_cons.mp hA.holds
  -- After the anchor has been replaced by `f`, those of the other blocks are left.
  have hgo : ∀ {w' : Workspace Scopes} {u v ss' : List Sign} {f : Forest Label},
      w.document.Within w'.document scope → ss = u ++ .anchor t.anchor.id :: v →
      Rendered strip mute w.state result f w'.state → Scoped w'.document scope mute ss' →
      Sheds strip (u ++ (signs f ++ v)) ss' →
      Runs (expandAllVia resolveOnly strip b.driver T (i + 1) select scope verbatim) w'
        (fun _ => Woven strip mute w scope ss (result :: results)) fun _ _ => SomeFails (result :: results) := by
    rintro w' u v ss' f hw rfl hf hS' hsheds
    obtain ⟨hu, hv⟩ := anchorIds_eq_nil hids hroots
    have hfilled : ∀ s ∈ u ++ (signs f ++ v), s.IsFilled := by
      have hss := hA.isFilled
      simp only [List.mem_append, List.mem_cons] at hss ⊢
      rintro s (hs | hs | hs)
      · exact hss s (.inl hs)
      · exact hf.isFilled s hs
      · exact hss s (.inr (.inr hs))
    have hA' : Awaits mute content w' scope T ss' := by
      refine ⟨hS', ?_, fun s hs => hfilled s (hsheds.mem s hs), hTout.within hw wf⟩
      rw [hsheds.anchorIds_eq, anchorIds_append, anchorIds_append, hu, hf.anchorIds_eq, hv]
      rfl
    refine (hrest hf.state_eq hA').mono ?_ fun _ _ he => someFails_cons (.inr he)
    rintro - w₂ hwoven
    obtain ⟨ss₂, texts, hS₂, hids₂, hfilled₂, htexts, hshown⟩ := hwoven.exists_texts
    obtain ⟨text, htext, hf'⟩ := hf.exists_text
    refine ⟨hw.trans hwoven.within wf, hwoven.state_eq.trans hf.state_eq, ss₂, text :: texts, hS₂, hids₂,
      hfilled₂, ?_, ?_⟩
    · rw [htext, htexts, List.map_cons]
    · rw [hshown, hsheds.visible_weave, visible_weave_replace hu hf.anchorIds_eq hf']
  unfold expandAllVia
  split
  · next hselect =>
    refine Runs.bind (E := fun _ _ => SomeFails (result :: results))
      (Q := fun _ w' => w.document.Within w'.document scope ∧ ∃ u v f ss',
        ss = u ++ .anchor t.anchor.id :: v ∧ Rendered strip mute w.state result f w'.state ∧
        Scoped w'.document scope mute ss' ∧ Sheds strip (u ++ (signs f ++ v)) ss') ?_ ?_
    · exact (runs_expandOne (E := fun _ _ => Fails result) (.refl wf) wf hS.mem_ids hS hends (fun _ h => h.elim)
        (hbody hselect) fun _ _ h => h.sound).mono (fun _ _ h => h) fun _ _ he => someFails_cons (.inl he)
    · rintro - w' ⟨hw, u, v, f, ss', hss, hf, hS', hsheds⟩
      exact hgo hw hss hf hS' hsheds
  · next hselect =>
    rw [Bool.not_eq_true] at hselect
    refine Runs.bind (E := fun _ _ => SomeFails (result :: results))
      (Q := fun _ w' => w.document.Within w'.document scope ∧ w'.state = w.state ∧ ∃ u v ss',
        ss = u ++ .anchor t.anchor.id :: v ∧ Scoped w'.document scope mute ss' ∧ Sheds strip (u ++ v) ss') ?_ ?_
    · exact (runs_removeOne (E := fun _ _ => False) (.refl wf) wf hS.mem_ids hS hends fun _ h => h).mono
        (fun _ _ h => h) fun _ _ he => he.elim
    · rintro - w' ⟨hw, hstate, u, v, ss', hss, hS', hsheds⟩
      have hnone : Rendered strip mute w.state result nil w'.state :=
        hstate ▸ rendered_of_quiet w'.state (by simp [Quiet, toList]) (hleft hselect)
      exact hgo hw hss hnone hS' hsheds

/-! ### What is put behind an anchor -/

section Body

variable {PS : Forest Part} {n : NodeId} {up : List (Frame Node)} {left right : Forest Node}

/-- A keyword is replaced by the break that it stands for. -/
theorem runs_expandBody_keyword {inner : Block.Inner Scopes} (hkind : t.kind = .inlineKeyword)
    (wf : w.document.WellFormed) (hs : scope ∈ w.document.ids)
    (hc : w.document.Cursor scope n up left right) (PS : Forest Part)
    (within : Block.Selection → Scopes → Except Error (List Char)) (selected : Directive.Kind → Bool) :
    let result := b.partText (.keyword t.block.start.directive) PS within selected w.state
    Runs (expandBody b.driver inner t verbatim n) w
      (fun _ => Filled w.document scope up left right (Rendered strip mute w.state result))
      fun _ _ => Fails result := by
  intro result
  unfold expandBody
  rw [if_pos hkind]
  refine runs_expandKeyword (.refl wf) wf hs hc (fun hnone => ?_) fun label hsome => ?_
  · have hresult : result = .error (.unknownKeyword t.block.start.directive.expression) :=
      if_neg (by simp [hnone])
    rw [hresult]
    exact fails_error _
  · exact rendered_of_quiet _ (quiet_of_keywordLabel? hsome) (if_pos (by simp [hsome]))

theorem itemText_of_item {start : Directive} {within : Block.Selection → Scopes → Except Error (List Char)}
    {s : Scopes} {count k : Nat} {item : Json} (h : b.item s start k = .ok item) :
    b.itemText start within s count k = within (.item (k + 1 == count)) (s.push item) := by
  rw [ModelBinding.itemText, h]
  rfl

theorem itemText_of_item_eq_error {start : Directive}
    {within : Block.Selection → Scopes → Except Error (List Char)} {s : Scopes} {count k : Nat}
    {e : Binding.Error} (h : b.item s start k = .error e) :
    b.itemText start within s count k = .error (.binding e) := by
  rw [ModelBinding.itemText, h]
  rfl

theorem exists_of_enterItem_eq_ok {start : Directive} {k : Nat} {s s' : Scopes}
    (h : b.driver.enterItem start k s = .ok () s') : ∃ item, b.item s start k = .ok item ∧ s' = s.push item := by
  rw [ModelBinding.enterItem_eq] at h
  split at h
  · next item hitem =>
    cases h
    exact ⟨item, hitem, rfl⟩
  · cases h

theorem exists_of_enterItem_eq_error {start : Directive} {k : Nat} {s s' : Scopes} {e : Binding.Error}
    (h : b.driver.enterItem start k s = .error e s') : ∃ e, b.item s start k = .error e := by
  rw [ModelBinding.enterItem_eq] at h
  split at h
  · cases h
  · next e he => exact ⟨e, he⟩

/-- The instances that a plan asks for show what the block comes to. -/
theorem plans_plannedText {inner : Block.Inner Scopes} {s : Scopes}
    {within : Block.Selection → Scopes → Except Error (List Char)} (plan : Expansion)
    (hfill : ∀ select s' {R : Forest Label → Scopes → Prop} {E : Error → Workspace Scopes → Prop},
      (∀ e w, Fails (within select s') → E e w) →
      (∀ f s₂, Rendered strip mute s' (within select s') f s₂ → R f s₂) →
      Fills b.driver inner select false content t TS s' R E) :
    let result := b.plannedText t.block.start.directive within s plan
    Plans b.driver inner content t TS s (Rendered strip mute s result) (fun _ _ => Fails result) plan := by
  intro result
  unfold Plans
  split
  · exact hfill _ s (fun _ _ h => h) fun _ _ h => h
  · exact hfill _ s (fun _ _ h => h) fun _ _ h => h
  · next count hcount =>
    let itemText := b.itemText t.block.start.directive within s count
    have hresult : result = ((List.range count).mapM itemText).map List.flatten := by
      cases count with
      | zero => exact absurd rfl hcount
      | succ count => rfl
    -- If one item fails, so do all of them together.
    have hfails : ∀ k, k < count → Fails (itemText k) → Fails result := by
      intro k hk hfail text htext
      rw [hresult] at htext
      cases hall : (List.range count).mapM itemText with
      | error e =>
        rw [hall] at htext
        cases htext
      | ok texts =>
        have := congrArg (·[k]?) (mapM_eq_ok_iff.mp hall)
        simp only [List.getElem?_map, List.getElem?_range hk, Option.map_some] at this
        obtain ⟨a, -, ha⟩ := Option.map_eq_some_iff.mp this.symm
        exact hfail a ha.symm
    refine ⟨fun k f s' => Sound mute f ∧ s' = s ∧ (∀ sign ∈ signs f, sign.IsFilled) ∧
      anchorIds (signs f) = [] ∧ ∃ texts : List (List Char),
        (List.range k).map itemText = texts.map .ok ∧ visible strip (shown (signs f)) = visible strip texts.flatten,
      ⟨trivial, rfl, by simp, rfl, [], rfl, rfl⟩, ?_, ?_, ?_⟩
    · rintro k f _ e s' hk ⟨-, rfl, -⟩ henter d
      refine hfails k hk ?_
      obtain ⟨e, he⟩ := exists_of_enterItem_eq_error henter
      rw [show itemText k = _ from itemText_of_item_eq_error he]
      exact fails_error _
    · rintro k f s₁ s' hk ⟨hsound, rfl, hfilled, hids, texts, htexts, hshown⟩ henter
      obtain ⟨item, hitem, rfl⟩ := exists_of_enterItem_eq_ok henter
      have htext : itemText k = within (.item (k + 1 == count)) (s₁.push item) := itemText_of_item hitem
      refine hfill _ _ (fun e w hfail => hfails k hk (htext ▸ hfail)) fun g s₂ hg => ?_
      obtain ⟨text, hresult, hg'⟩ := hg.exists_text
      refine ⟨sound_append.mpr ⟨hsound, hg.sound⟩, ?_, ?_, ?_, texts ++ [text], ?_, ?_⟩
      · rw [hg.state_eq]
        exact Scopes.pop_push ..
      · rw [signs_append]
        exact List.forall_mem_append.mpr ⟨hfilled, hg.isFilled⟩
      · rw [signs_append, anchorIds_append, hids, hg.anchorIds_eq, List.append_nil]
      · rw [List.range_succ, List.map_append, htexts, List.map_singleton, htext, hresult, List.map_append,
          List.map_singleton]
      · rw [signs_append, shown_append, visible_append, hshown, hg', List.flatten_append, List.flatten_singleton,
          visible_append]
    · rintro f _ ⟨hsound, rfl, hfilled, hids, texts, htexts, hshown⟩
      refine ⟨hsound, rfl, hfilled, hids, texts.flatten, ?_, hshown⟩
      rw [hresult, mapM_eq_ok_iff.mpr htexts]
      rfl

theorem blockText_of_plan {start : Directive} {within : Block.Selection → Scopes → Except Error (List Char)}
    {s : Scopes} {plan : Expansion} (h : b.plan s start = .ok plan) :
    b.blockText start within s = b.plannedText start within s plan := by
  rw [ModelBinding.blockText, h]
  rfl

theorem blockText_of_plan_eq_error {start : Directive}
    {within : Block.Selection → Scopes → Except Error (List Char)} {s : Scopes} {e : Binding.Error}
    (h : b.plan s start = .error e) : b.blockText start within s = .error (.binding e) := by
  rw [ModelBinding.blockText, h]
  rfl

theorem plan_eq_error_of_driver {start : Directive} {s s' : Scopes} {e : Binding.Error}
    (h : b.driver.plan start s = .error e s') : b.plan s start = .error e := by
  change ModelBinding.answer (b.plan s start) s = .error e s' at h
  cases hp : b.plan s start with
  | ok plan =>
    rw [hp] at h
    cases h
  | error e' =>
    rw [hp] at h
    cases h
    rfl

/-- A block is replaced by the instances that are planned for it. -/
theorem runs_expandBody_planned {inner : Block.Inner Scopes} (hkind : isPlanned t verbatim = true)
    (wf : w.document.WellFormed) (hs : scope ∈ w.document.ids)
    (hc : w.document.Cursor scope n up left right) (hT : Holds w.document scope content (cons t TS nil))
    {within : Block.Selection → Scopes → Except Error (List Char)}
    (hfill : ∀ select s' {R : Forest Label → Scopes → Prop} {E : Error → Workspace Scopes → Prop},
      (∀ e w, Fails (within select s') → E e w) →
      (∀ f s₂, Rendered strip mute s' (within select s') f s₂ → R f s₂) →
      Fills b.driver inner select false content t TS s' R E) :
    let result := b.blockText t.block.start.directive within w.state
    Runs (expandBody b.driver inner t verbatim n) w
      (fun _ => Filled w.document scope up left right (Rendered strip mute w.state result))
      fun _ _ => Fails result := by
  intro result
  have hnot : t.kind ≠ .inlineKeyword := by
    intro hk
    simp [isPlanned, hk] at hkind
  refine runs_expandBody (.refl wf) wf hs hc hT (fun hk => absurd hk hnot) (fun _ hk => absurd hk hnot) ?_ ?_
    fun _ hk => absurd hkind (by simp [hk])
  · intro e s _ hplan
    rw [show result = _ from blockText_of_plan_eq_error (plan_eq_error_of_driver hplan)]
    exact fails_error _
  · intro plan s _ hplan
    obtain ⟨hp, rfl⟩ := answer_eq_ok hplan
    rw [show result = _ from blockText_of_plan hp]
    exact plans_plannedText plan hfill

/-- A block is replaced by one instance if nothing is planned for it. -/
theorem runs_expandBody_all {inner : Block.Inner Scopes} (hkind : t.kind ≠ .inlineKeyword)
    (hplanned : isPlanned t verbatim = false) (wf : w.document.WellFormed) (hs : scope ∈ w.document.ids)
    (hc : w.document.Cursor scope n up left right) (hT : Holds w.document scope content (cons t TS nil))
    (hfill : Fills b.driver inner .all verbatim content t TS w.state (Rendered strip mute w.state result)
      fun _ _ => Fails result) :
    Runs (expandBody b.driver inner t verbatim n) w
      (fun _ => Filled w.document scope up left right (Rendered strip mute w.state result))
      fun _ _ => Fails result := by
  refine runs_expandBody (.refl wf) wf hs hc hT (fun hk => absurd hk hkind) (fun _ hk => absurd hk hkind) ?_ ?_
    fun _ _ => hfill
  · intro _ _ hp
    rw [hplanned] at hp
    cases hp
  · intro _ _ hp
    rw [hplanned] at hp
    cases hp

end Body

/-! ### Outlines -/

/-- A passage, and then those behind it. -/
theorem runs_cons_passage (hcontent : Framed content .level P TS (signs (content t))) (hP : IsRegular P)
    (hfragment : Word.fragment ∉ mute) (htext : Word.text ∉ mute) (hsound : Sound mute (content t))
    (hkind : t.kind = .content ∨ t.kind.isSeparator = true) (hnd : ((cons t TS T).toList.map (·.number)).Nodup)
    (hverbatim : verbatim = true → ∀ q ∈ P.toList, q.isPlain = true)
    (hA : Awaits mute content w scope (cons t TS T) ss)
    (ih : ∀ {w : Workspace Scopes} {scope : NodeId} {ss : List Sign}, Awaits mute content w scope TS ss →
      Runs (expandAllVia resolveOnly strip b.driver TS 0 .all scope verbatim) w
        (fun _ => Woven strip mute w scope ss (b.blockTexts P 0 .all w.state))
        fun _ _ => SomeFails (b.blockTexts P 0 .all w.state))
    (hrest : ∀ {w' : Workspace Scopes} {ss : List Sign}, w'.state = w.state →
      Awaits mute content w' scope T ss →
      Runs (expandAllVia resolveOnly strip b.driver T (i + 1) select scope verbatim) w'
        (fun _ => Woven strip mute w' scope ss results) fun _ _ => SomeFails results) :
    let result := b.partText (.passage t.kind) P (b.interpret P 0) (select i) w.state
    Runs (expandAllVia resolveOnly strip b.driver (cons t TS T) i select scope verbatim) w
      (fun _ => Woven strip mute w scope ss (result :: results)) fun _ _ => SomeFails (result :: results) := by
  intro result
  have hkeyword : t.kind ≠ .inlineKeyword := by
    intro hk
    simp [hk, Directive.Kind.isSeparator] at hkind
  have hignore : (verbatim || decide (t.kind = .ignoreStart)) = verbatim := by
    rw [decide_eq_false, Bool.or_false]
    intro hk
    simp [hk, Directive.Kind.isSeparator] at hkind
  have hplanned : isPlanned t verbatim = false := by
    rw [isPlanned, Bool.and_eq_false_iff]
    left
    rcases hkind with hk | hk
    · simp [hk]
    · cases hkind : t.kind <;> simp_all [Directive.Kind.isSeparator]
  refine runs_cons hA hnd (fun hselect => ?_) (fun hselect n up left right hc => ?_) hrest
  · simp [result, ModelBinding.partText, hselect]
  · have hresult : result = b.interpret P 0 .all w.state := by
      simp [result, ModelBinding.partText, hselect]
    obtain ⟨hthis, hTin, -⟩ := holds_cons.mp hA.holds
    rw [hignore, hresult]
    exact runs_expandBody_all hkeyword hplanned hA.isScoped.wellFormed hA.isScoped.mem_ids hc
      (holds_cons.mpr ⟨hthis, hTin, fun _ ht => by cases ht⟩)
      (hcontent.fills hP hfragment htext hsound hverbatim ih (fun _ _ h => h) fun _ _ h => h)

theorem isPlanned_eq_true {kind : Directive.Kind} (h : kind.isBlockStart = true) (hk : kind ≠ .inlineKeyword)
    (hi : kind ≠ .ignoreStart) : kind = .collectionStart ∨ kind = .conditionStart := by
  cases kind <;> simp_all [Directive.Kind.isBlockStart]

/-- The blocks of an outline are expanded to what the interpretation puts into the places of their anchors. -/
theorem Framed.runs_expandAll (h : Framed content rank P T ss₀) (hP : IsRegular P) (hplain : IgnoresPlain P)
    (hfragment : Word.fragment ∉ mute) (htext : Word.text ∉ mute)
    (hsound : ∀ t ∈ T.toList, Sound mute (content t)) (hnd : (T.toList.map (·.number)).Nodup)
    (hlevel : rank = .level → select = .all) (hpassages : rank = .passages → i = j)
    (hverbatim : verbatim = true → ∀ q ∈ P.toList, q.isPlain = true)
    (hA : Awaits mute content w scope T ss) :
    Runs (expandAllVia resolveOnly strip b.driver T i select scope verbatim) w
      (fun _ => Woven strip mute w scope ss (b.blockTexts P j select w.state))
      fun _ _ => SomeFails (b.blockTexts P j select w.state) := by
  induction h generalizing w scope ss i j select verbatim with
  | nil =>
    refine ⟨.refl hA.isScoped.wellFormed, rfl, ss, [], hA.isScoped, hA.anchorIds_eq, hA.isFilled, rfl, ?_⟩
    rw [weave_of_anchorIds hA.anchorIds_eq]
  | @text s P T _ _ ih =>
    rw [blockTexts_chars]
    exact ih (isRegular_chars.mp hP) (ignoresPlain_chars.mp hplain) hsound hnd hlevel (by simp)
      (fun hv q hq => hverbatim hv q (mem_toList_chars.mpr (.inr hq))) hA
  | value _ _ ih =>
    exact ih hP.2.2 hplain.2.2 hsound hnd hlevel (by simp)
      (fun hv q hq => hverbatim hv q (List.mem_cons_of_mem _ hq)) hA
  | mark _ _ ih => exact ih hP hplain hsound hnd hlevel hpassages hverbatim hA
  | @keyword t P T _ hkind _ ih =>
    obtain rfl := hlevel rfl
    simp only [toList, List.forall_mem_cons] at hsound
    refine runs_cons hA hnd (fun hselect => by cases hselect) (fun _ n up left right hc => ?_)
      fun hstate hA' => hstate ▸ ih hP.2.2 hplain.2.2 hsound.2 (List.nodup_cons.mp hnd).2 (fun _ => rfl) (by simp)
        (fun hv q hq => hverbatim hv q (List.mem_cons_of_mem _ hq)) hA'
    exact runs_expandBody_keyword hkind hA.isScoped.wellFormed hA.isScoped.mem_ids hc .nil _ _
  | @block t PS P TS T _ hkind hstart hkeyword hPS hPT ihs ih =>
    obtain rfl := hlevel rfl
    have hnumbers := hnd
    simp only [toList, List.forall_mem_cons, List.map_cons, List.map_append, List.nodup_cons,
      List.nodup_append, List.mem_append] at hsound hnumbers
    obtain rfl : verbatim = false := by
      cases verbatim with
      | false => rfl
      | true => cases hverbatim rfl _ (List.mem_cons_self ..)
    obtain ⟨hthis, hTin, -⟩ := holds_cons.mp hA.holds
    have hTS : Holds w.document scope content (cons t TS .nil) :=
      holds_cons.mpr ⟨hthis, hTin, fun _ ht => by cases ht⟩
    -- A fragment for the content of the block.
    have hfill : ∀ select (verbatim : Bool) s' {R : Forest Label → Scopes → Prop}
        {E : Error → Workspace Scopes → Prop}, (verbatim = true → ∀ q ∈ PS.toList, q.isPlain = true) →
        (∀ e w, Fails (b.interpret PS 0 select s') → E e w) →
        (∀ f s₂, Rendered strip mute s' (b.interpret PS 0 select s') f s₂ → R f s₂) →
        Fills b.driver (expandAllVia resolveOnly strip b.driver TS 0) select verbatim content t TS s' R E :=
      fun select verbatim s' R E hv hE hR => hPS.fills hP.2.1 hfragment htext hsound.1 hv
        (fun hA' => ihs hP.2.1 hplain.2.1 (fun t ht => hsound.2 t (.inl ht)) hnumbers.2.1 (by simp)
          (fun _ => rfl) hv hA') hE hR
    refine runs_cons hA hnd (fun hselect => by cases hselect) (fun _ n up left right hc => ?_)
      fun hstate hA' => hstate ▸ ih hP.2.2 hplain.2.2 (fun t ht => hsound.2 t (.inr ht)) hnumbers.2.2.1
        (fun _ => rfl) (by simp) (by simp) hA'
    have wf := hA.isScoped.wellFormed
    have hs := hA.isScoped.mem_ids
    rw [ModelBinding.partText, ← hkind, Bool.false_or]
    by_cases hignore : t.kind = .ignoreStart
    · have hPSplain : ∀ q ∈ PS.toList, q.isPlain = true := hplain.1 (by simp [Part.isIgnored, ← hkind, hignore])
      have hinterpret : b.interpret PS 0 .all w.state = .ok (plainText PS) := hPS.interpret_of_isPlain hPSplain
      rw [if_pos hignore, decide_eq_true hignore, ← hinterpret]
      exact runs_expandBody_all hkeyword (by simp [isPlanned]) wf hs hc hTS
        (hfill _ _ _ (fun _ => hPSplain) (fun _ _ h => h) fun _ _ h => h)
    · have hplanned : isPlanned t false = true := by
        rcases isPlanned_eq_true hstart hkeyword hignore with hk | hk <;> simp [isPlanned, hk]
      rw [if_neg hignore, decide_eq_false hignore]
      exact runs_expandBody_planned hplanned wf hs hc hTS fun select s' => hfill select false s' (by simp)
  | @last t P T hcontent ih =>
    obtain rfl := hpassages rfl
    have hnumbers := hnd
    simp only [tree, toList, List.forall_mem_cons, List.map_cons, List.nodup_cons, List.append_nil]
      at hsound hnumbers
    refine runs_cons_passage hcontent hP.2.1 hfragment htext hsound.1 hP.1 hnd
      (fun hv q hq => hverbatim hv q (by simp [tree, toList, hq])) hA
      (fun hA' => ih hP.2.1 hplain.2.1 hsound.2 hnumbers.2 (fun _ => rfl) (by simp)
        (fun hv q hq => hverbatim hv q (by simp [tree, toList, hq])) hA') fun _ hA' => ?_
    refine ⟨.refl hA'.isScoped.wellFormed, rfl, _, [], hA'.isScoped, hA'.anchorIds_eq, hA'.isFilled, rfl, ?_⟩
    rw [weave_of_anchorIds hA'.anchorIds_eq]
  | @more t P PS T TS _ hcontent _ ih ihs =>
    obtain rfl := hpassages rfl
    have hnumbers := hnd
    simp only [toList, List.forall_mem_cons, List.map_cons, List.map_append, List.nodup_cons,
      List.nodup_append, List.mem_append] at hsound hnumbers
    exact runs_cons_passage hcontent hP.2.1 hfragment htext hsound.1 hP.1 hnd
      (fun hv q hq => hverbatim hv q (by simp [toList, hq])) hA
      (fun hA' => ih hP.2.1 hplain.2.1 (fun t ht => hsound.2 t (.inl ht)) hnumbers.2.1 (fun _ => rfl) (by simp)
        (fun hv q hq => hverbatim hv q (by simp [toList, hq])) hA') fun hstate hA' =>
      hstate ▸ ihs hP.2.2 hplain.2.2 (fun t ht => hsound.2 t (.inr ht)) hnumbers.2.2.1 (by simp) (fun _ => rfl)
        (fun hv q hq => hverbatim hv q (by simp [toList, hq])) hA'

/-- What comes after the blocks have been read. -/
theorem Framed.runs_expandVia {settings : Settings} {d : Document} {root : NodeId}
    (h : Framed d.contentOf .level P T ss) (htaken : Taken settings.mute d root T ss) (hP : IsRegular P)
    (hplain : IgnoresPlain P) (b : ModelBinding) (s : Scopes) :
    Runs (expandVia resolveOnly settings b.driver root T) ⟨d, s⟩
      (fun _ => RenderedAt settings.stripEmptyParagraphs settings.mute ⟨d, s⟩ root (b.interpret P 0 .all s))
      fun _ _ => Fails (b.interpret P 0 .all s) := by
  have htext : Word.text ∉ settings.mute := Settings.not_mem_mute (by decide)
  rw [expandVia]
  change Runs (fillFragment b.driver (expandAllVia resolveOnly settings.stripEmptyParagraphs b.driver T 0) .all
    false root) ⟨d, s⟩ _ _
  exact h.runs_fillFragment hP htext htaken.isScoped (fun t ht => ⟨(htaken.isStored t ht).1, rfl⟩) (by simp)
    (h.runs_expandAll hP hplain (Settings.not_mem_mute (by decide)) htext
      (fun t ht => (htaken.isStored t ht).2) htaken.nodup (fun _ => rfl) (by simp) (by simp))

end Scopes

end WordTemplate
