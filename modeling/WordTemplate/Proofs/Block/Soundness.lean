import WordTemplate.Proofs.Binding.Substitution
import WordTemplate.Proofs.Block.Expansion

/-!
# Soundness of expansions

What is known of a scope while blocks are expanded in it is a property `I` of the signs that the
scope shows and of the blocks that are still to be expanded. `runs_expandAll` is the rule for
expansions, whatever the driver answers, as long as it only rewrites placeholders.

* `Covers`: if the scope shows the anchors of the blocks that are still to be expanded, each of them
  once, and no others, then every lookup finds exactly one node.
* `Leaves`: which placeholders can be left.
-/

namespace WordTemplate

open Xml Forest Binding

variable {σ : Type} {mute : List String} {content : Block.Template → Forest Label}

/-- Blocks with numbers of their own have anchors of their own. -/
theorem nodup_anchorIds {T : Forest Block.Template} (h : (T.toList.map (·.number)).Nodup) :
    (T.roots.map (·.anchor.id)).Nodup := by
  have := h.sublist ((roots_sublist T).map (·.number))
  rw [List.nodup_iff_pairwise_ne, List.pairwise_map] at this ⊢
  exact this.imp fun hne he => hne (id_startPoint_inj he)

theorem scoped_fragment {d : Document} {φ : Node} {f : Forest Node} {g : Forest Label}
    (wf : d.WellFormed) (hfragment : Word.fragment ∉ mute)
    (hφ : φ.label = .element ⟨Word.fragment, []⟩) (ht : d.treeAt φ.id = tree φ f)
    (hf : labels f = g) (hs : Sound mute g) : Scoped d φ.id mute (signs g) := by
  have hl : φ.label.isLandmark = false := by
    rw [hφ]
    decide
  have hm : φ.label.isMute mute = false := by
    have hp : Xml.isProperty Word.fragment = false := by decide
    rw [hφ]
    simp only [Label.isMute, Label.isElement, Label.isProperty, Label.isNamed, Label.name?, hp,
      Bool.not_true, Bool.false_or, List.any_eq_false, beq_iff_eq, Option.some.injEq]
    rintro name hname rfl
    exact hfragment hname
  refine ⟨wf, ⟨φ, f, ht, hl⟩, ?_, ?_⟩
  · rw [ht, labels_tree, hf, sound_tree_of_open hl hm]
    exact hs
  · rw [ht, labels_tree, hf, signs_tree _ hl]

/-- The break that a keyword stands for is no landmark. -/
theorem quiet_of_keywordLabel? {keyword : String} {label : Label}
    (h : Block.keywordLabel? keyword = some label) : Quiet (tree label nil) := by
  obtain ⟨attributes, rfl, ha⟩ : ∃ attributes : List Attribute,
      label = .element ⟨Word.lineBreak, attributes⟩ ∧
        attributes.lookup Word.insertionAttribute = none := by
    simp only [Block.keywordLabel?] at h
    split at h
    · exact ⟨[], (Option.some.inj h).symm, by decide⟩
    · exact ⟨_, (Option.some.inj h).symm, by decide⟩
    · exact ⟨_, (Option.some.inj h).symm, by decide⟩
    · simp at h
  have hn : (Word.lineBreak == Word.text) = false := by decide
  simp [Label.isLandmark, Label.isAnchor, Label.attribute?, ha, Label.isNamed, Label.name?, hn]

/-- The errors that an expansion can end with if all anchors are found. -/
def IsExpected (e : Error) : Prop :=
  (∃ keyword, e = .unknownKeyword keyword) ∨ ∃ cause, e = .binding cause

/-! ## Properties that are kept -/

/-- Whether a property of the anchors that are still to be looked up in a scope and of the signs of
the scope is kept when an anchor is replaced by what stands for its block. -/
structure Kept (strip : Bool) (I : List String → List Sign → Prop) : Prop where
  nil : I [] []
  append {ss ss' : List Sign} : I [] ss → I [] ss' → I [] (ss ++ ss')
  replace {id : String} {ids : List String} {u v ss ss' : List Sign} :
    I (id :: ids) (u ++ .anchor id :: v) → I [] ss → Sheds strip (u ++ (ss ++ v)) ss' → I ids ss'

/-- The anchors of the blocks at the top. -/
def rootIds (T : Forest Block.Template) : List String :=
  T.roots.map (·.anchor.id)

@[simp] theorem rootIds_nil : rootIds nil = [] := rfl

@[simp] theorem rootIds_cons (t : Block.Template) (T TS : Forest Block.Template) :
    rootIds (cons t T TS) = t.anchor.id :: rootIds TS := rfl

/-- Whether the contents of all blocks are sound and are as `J` says before their placeholders are
filled in, or as `I` says if they are not filled in. -/
def Fit (mute : List String) (I J : List String → List Sign → Prop)
    (content : Block.Template → Forest Label) : Bool → Forest Block.Template → Prop
  | _, .nil => True
  | verbatim, .cons t T TS =>
    (t.kind ≠ .inlineKeyword → Sound mute (content t) ∧
      (if verbatim || t.kind = .ignoreStart then I else J) (rootIds T) (signs (content t))) ∧
      Fit mute I J content (verbatim || t.kind = .ignoreStart) T ∧ Fit mute I J content verbatim TS

/-- Whether the driver makes `I` hold of a scope of which `J` held, by filling in placeholders. -/
def Substitutes (driver : Driver σ) (mute : List String) (J I : List String → List Sign → Prop) : Prop :=
  ∀ {w : Workspace σ} {scope : NodeId} {ss : List Sign} {ids : List String},
    Scoped w.document scope mute ss → J ids ss →
    Runs (driver.substitute scope) w
      (fun _ w' => w.document.Within w'.document scope ∧
        ∃ ss', Scoped w'.document scope mute ss' ∧ I ids ss') fun _ _ => True

section Runs

variable {resolve : Resolver σ} {strip : Bool} {driver : Driver σ} {w : Workspace σ}
  {scope : NodeId} {ss : List Sign} {T : Forest Block.Template} {I J : List String → List Sign → Prop}
  {F : Error → Prop}

/-- Filling a fragment. -/
theorem fills_of_runs {t : Block.Template} {verbatim : Bool} {select : Block.Selection} {s : σ}
    {E : Error → Workspace σ → Prop} (hsubst : Substitutes driver mute J I)
    (hfragment : Word.fragment ∉ mute) (hexpected : ∀ e, IsExpected e → F e)
    (hE : ∀ e w, F e → E e w) (hsound : Sound mute (content t))
    (hJ : (if verbatim then I else J) (rootIds T) (signs (content t)))
    (ih : ∀ {w : Workspace σ} {scope ss}, Scoped w.document scope mute ss → I (rootIds T) ss →
      Holds w.document scope content T →
      Runs (expandAllVia resolve strip driver T 0 select scope verbatim) w
        (fun _ w' => w.document.Within w'.document scope ∧ ∃ ss', Scoped w'.document scope mute ss' ∧
          I [] ss') fun e _ => F e) :
    Fills driver (expandAllVia resolve strip driver T 0) select verbatim content t T s
      (fun f _ => Sound mute f ∧ I [] (signs f)) E := by
  intro w φ f hs wf hφ ht hf hT
  have hS := scoped_fragment wf hfragment hφ ht hf hsound
  have hrest : ∀ {w' : Workspace σ} {ss'}, w.document.Within w'.document φ.id →
      Scoped w'.document φ.id mute ss' → I (rootIds T) ss' →
      Runs (expandAllVia resolve strip driver T 0 select φ.id verbatim) w'
        (fun _ w₂ => w.document.Within w₂.document φ.id ∧
          ∃ node g, w₂.document.treeAt φ.id = tree node g ∧ Sound mute (labels g) ∧
            I [] (signs (labels g))) E := by
    intro w' ss' hw hS' hI
    refine (ih hS' hI (hT.within hw wf)).mono ?_ fun e w₂ he => hE e w₂ he
    rintro - w₂ ⟨hw₂, ss₂, hS₂, hI₂⟩
    obtain ⟨node, g, ht₂, hl⟩ := hS₂.exists_eq
    refine ⟨hw.trans hw₂ wf, node, g, ht₂, ?_, ?_⟩
    · have := hS₂.sound
      rw [ht₂] at this
      exact this.children
    · rwa [← hS₂.signs_eq, ht₂, labels_tree, signs_tree _ hl] at hI₂
  unfold fillFragment
  cases verbatim with
  | true => exact hrest (.refl wf) hS hJ
  | false =>
    refine Runs.bind (E := E) (Q := fun _ w₁ => w.document.Within w₁.document φ.id ∧
      ∃ ss', Scoped w₁.document φ.id mute ss' ∧ I (rootIds T) ss') ?_ ?_
    · exact ((hsubst hS hJ).mono (fun _ _ h => h)
        fun e w' _ => hE _ w' (hexpected _ (.inr ⟨e, rfl⟩))).ask
    · rintro - w₁ ⟨hw, ss', hS', hI⟩
      exact hrest hw hS' hI

/-- What is kept of every item of a collection is kept of all of them. -/
theorem plans_of_fills {inner : Block.Inner σ} {t : Block.Template} {s : σ}
    {E : Error → Workspace σ → Prop} (hkept : Kept strip I) (hexpected : ∀ e, IsExpected e → F e)
    (hE : ∀ e w, F e → E e w)
    (hfill : ∀ select s' {E' : Error → Workspace σ → Prop}, (∀ e w, F e → E' e w) →
      Fills driver inner select false content t T s'
        (fun f _ => Sound mute f ∧ I [] (signs f)) E') (plan : Expansion) :
    Plans driver inner content t T s (fun f _ => Sound mute f ∧ I [] (signs f)) E plan := by
  unfold Plans
  split
  · exact hfill _ s hE
  · exact hfill _ s hE
  · refine ⟨fun _ f _ => Sound mute f ∧ I [] (signs f), ⟨trivial, hkept.nil⟩, ?_, ?_, fun f s h => h⟩
    · exact fun _ _ _ e _ _ _ _ d => hE _ _ (hexpected _ (.inr ⟨e, rfl⟩))
    · rintro k f s s' - ⟨hs, hI⟩ - w φ g hw wf hφ ht hg hT
      have hleave : ∀ (e : Error) (w : Workspace σ), F e → E e { w with state := driver.leaveItem w.state } :=
        fun e w he => hE _ _ he
      refine (hfill _ s' hleave w φ g hw wf hφ ht hg hT).mono ?_ fun _ _ h => h
      rintro - w' ⟨hw', node, g', ht', hs', hI'⟩
      refine ⟨hw', node, g', ht', ?_, ?_⟩
      · rw [sound_append]
        exact ⟨hs, hs'⟩
      · rw [signs_append]
        exact hkept.append hI hI'

/-- The rule for expansions: what is kept by replacing anchors holds after all blocks have been
expanded. -/
theorem runs_expandAll (hkept : Kept strip I) (hfinds : resolve.Finds mute I F)
    (hsubst : Substitutes driver mute J I) (hexpected : ∀ e, IsExpected e → F e)
    (hfragment : Word.fragment ∉ mute) {i : Nat} {select : Block.Selection} {verbatim : Bool}
    (hS : Scoped w.document scope mute ss) (hI : I (rootIds T) ss)
    (hT : Holds w.document scope content T) (hfit : Fit mute I J content verbatim T) :
    Runs (expandAllVia resolve strip driver T i select scope verbatim) w
      (fun _ w' => w.document.Within w'.document scope ∧
        ∃ ss', Scoped w'.document scope mute ss' ∧ I [] ss') fun e _ => F e := by
  induction T generalizing i select scope verbatim w ss with
  | nil => exact ⟨.refl hS.wellFormed, ss, hS, hI⟩
  | cons t T TS ih ihs =>
    obtain ⟨hcontent, hfitT, hfitTS⟩ := hfit
    rw [holds_cons] at hT
    obtain ⟨hthis, hTin, hTout⟩ := hT
    have wf := hS.wellFormed
    have hends := hfinds hS hI
    -- What is left after this block goes on from a scope with one anchor less.
    have hrest : ∀ {w' : Workspace σ} {ss'}, w.document.Within w'.document scope →
        Scoped w'.document scope mute ss' → I (rootIds TS) ss' →
        Runs (expandAllVia resolve strip driver TS (i + 1) select scope verbatim) w'
          (fun _ w₂ => w.document.Within w₂.document scope ∧
            ∃ ss', Scoped w₂.document scope mute ss' ∧ I [] ss') fun e _ => F e := by
      intro w' ss' hw hS' hI'
      refine (ihs hS' hI' (hTout.within hw wf) hfitTS).mono ?_ fun _ _ h => h
      rintro - w₂ ⟨hw₂, h⟩
      exact ⟨hw.trans hw₂ wf, h⟩
    unfold expandAllVia
    split
    · -- The block is expanded.
      have hfill : t.kind ≠ .inlineKeyword → ∀ select b s {E' : Error → Workspace σ → Prop},
          (b = (verbatim || t.kind = .ignoreStart)) → (∀ e w, F e → E' e w) →
          Fills driver (expandAllVia resolve strip driver T 0) select b content t T s
            (fun f _ => Sound mute f ∧ I [] (signs f)) E' := by
        rintro hk select b s E' rfl hE
        exact fills_of_runs hsubst hfragment hexpected hE (hcontent hk).1 (hcontent hk).2
          fun hS' hI' hT' => ih hS' hI' hT' hfitT
      have hplanned : isPlanned t (verbatim || t.kind = .ignoreStart) = true →
          t.kind ≠ .inlineKeyword ∧ false = (verbatim || t.kind = .ignoreStart) := by
        intro hp
        rw [isPlanned, Bool.and_eq_true, Bool.not_eq_true'] at hp
        refine ⟨fun hk => ?_, hp.2.symm⟩
        simp [hk] at hp
      refine Runs.bind (Q := fun _ w' => w.document.Within w'.document scope ∧
        ∃ ss', Scoped w'.document scope mute ss' ∧ I (rootIds TS) ss')
        ((runs_expandOne (R := fun f _ => Sound mute f ∧ I [] (signs f))
          (E := fun e _ => F e) (.refl wf) wf hS.mem_ids hS hends (fun _ h => h) ?_
          fun _ _ h => h.1).mono ?_ fun _ _ h => h) fun _ w' h => hrest h.1 h.2.choose_spec.1
            h.2.choose_spec.2
      · intro n up left right hc
        refine runs_expandBody (T := T) (.refl wf) wf hS.mem_ids hc
          (holds_cons.mpr ⟨hthis, hTin, fun t ht => by simp [toList] at ht⟩) ?_ ?_ ?_ ?_ ?_
        · exact fun _ _ => hexpected _ (.inl ⟨_, rfl⟩)
        · intro label _ hlabel
          have hquiet := quiet_of_keywordLabel? hlabel
          refine ⟨.of_quiet hquiet, ?_⟩
          rw [signs_eq_nil_of_quiet hquiet]
          exact hkept.nil
        · exact fun e s _ _ => hexpected _ (.inr ⟨e, rfl⟩)
        · intro plan s hp _
          obtain ⟨hk, hb⟩ := hplanned hp
          exact plans_of_fills hkept hexpected (fun _ _ h => h)
            (fun select s' E' hE => hfill hk select false s' hb hE) plan
        · exact fun hk _ => hfill hk _ _ _ rfl fun _ _ h => h
      · rintro - w' ⟨hw', u, v, f, ss', rfl, ⟨-, hf⟩, hS', hsheds⟩
        exact ⟨hw', ss', hS', hkept.replace hI hf hsheds⟩
    · -- The block is left out.
      refine Runs.bind (Q := fun _ w' => w.document.Within w'.document scope ∧
        ∃ ss', Scoped w'.document scope mute ss' ∧ I (rootIds TS) ss')
        ((runs_removeOne (E := fun e _ => F e) (.refl wf) wf hS.mem_ids hS hends fun _ h => h).mono ?_
          fun _ _ h => h) fun _ w' h => hrest h.1 h.2.choose_spec.1 h.2.choose_spec.2
      rintro - w' ⟨hw', -, u, v, ss', rfl, hS', hsheds⟩
      exact ⟨hw', ss', hS', hkept.replace hI hkept.nil (by simpa using hsheds)⟩

end Runs

/-! ## Anchors -/

/-- Whether just the anchors that are still to be looked up are shown, each of them once. -/
def Covers (ids : List String) (ss : List Sign) : Prop :=
  (anchorIds ss).Perm ids ∧ ids.Nodup

theorem covers_nil {ss : List Sign} : Covers [] ss ↔ anchorIds ss = [] := by
  simp [Covers]

theorem kept_covers (strip : Bool) : Kept strip Covers where
  nil := covers_nil.mpr rfl
  append h h' := by
    rw [covers_nil] at h h' ⊢
    rw [anchorIds_append, h, h', List.append_nil]
  replace {id ids u v ss ss'} h hf hsheds := by
    rw [covers_nil] at hf
    refine ⟨?_, (List.nodup_cons.mp h.2).2⟩
    have hperm : (id :: (anchorIds u ++ anchorIds v)).Perm (id :: ids) := by
      refine List.Perm.trans ?_ h.1
      rw [anchorIds_append, anchorIds_cons_anchor]
      exact List.perm_middle.symm
    rw [hsheds.anchorIds_eq, anchorIds_append, anchorIds_append, hf, List.nil_append]
    exact hperm.cons_inv

/-- An anchor that is covered is found as the only one. -/
theorem finds_resolveOnly (F : Error → Prop) :
    Resolver.Finds (resolveOnly : Resolver σ) mute Covers F := by
  intro w scope ss t ids hS hI
  refine ends_resolveOnly hS ?_
  rw [hI.1.count_eq]
  exact Nat.le_antisymm (List.nodup_iff_count.mp hI.2 _)
    (List.count_pos_iff.mpr (List.mem_cons_self ..))

theorem substitutes_covers {driver : Driver σ} (hdriver : driver.RewritesPlaceholders)
    (hmute : Word.text ∉ mute) : Substitutes driver mute Covers Covers := by
  intro w scope ss ids hS hI
  refine (hdriver scope w).mono ?_ fun _ _ _ => trivial
  rintro - w' ⟨ns, hr⟩
  obtain ⟨hw, ls', hC', hrewritten⟩ := hr.rewritten (.refl hS.wellFormed) hS.wellFormed hS.mem_ids
    hS.charted hmute
  refine ⟨hw, _, hC'.scoped, ?_, hI.2⟩
  rw [hrewritten.anchorIds_eq, hS.map_sign_landmarks]
  exact hI.1

end WordTemplate
