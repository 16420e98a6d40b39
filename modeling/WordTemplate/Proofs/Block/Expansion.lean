import WordTemplate.Proofs.Block.Instance
import WordTemplate.Proofs.Word.Paragraph

/-!
# Expanding blocks

The rules for runs of an expansion. An expansion looks up anchors; how this is done is a parameter
here, so that the rules hold of lookups that accept any anchor (`resolveAnchor`) and of those that
demand that there is just one (`resolveOnly`). A lookup may also fail.

* `runs_expandOne`: the signs of the scope have those of the instances in place of the anchor.
* `runs_removeOne`: the anchor is gone.
-/

namespace WordTemplate

open Xml Forest Binding

variable {σ : Type}

/-! ## Expansion with a given lookup -/

/-- How the anchor of a block is looked up in a scope. -/
abbrev Resolver (σ : Type) := Block.Template → NodeId → Step Error σ NodeId

/-- The anchor of a block, if it is the only node in the scope with this insertion point. -/
def resolveOnly : Resolver σ := fun t scope => do
  match ((← Step.document).treeAt scope).toList.filter (t.anchor.isOn ·.label) with
  | [node] => return node.id
  | _ => throw (.insertionPointMissing t.anchor.id)

/-- What is put behind the anchor of a block. -/
def expandBody (driver : Driver σ) (inner : Block.Inner σ) (t : Block.Template) (verbatim : Bool)
    (anchor : NodeId) : Step Error σ Unit :=
  let directive := t.block.start.directive
  if t.kind = .inlineKeyword then Block.expandKeyword directive.expression anchor
  else if (t.kind = .collectionStart || t.kind = .conditionStart) && !verbatim then do
    let plan ← Block.ask (Step.onState (driver.plan directive))
    discard (Block.insertPlanned driver inner t anchor plan)
  else discard (Block.insertInstance driver inner t verbatim .all anchor)

/-- Expands one block. -/
def expandOneVia (resolve : Resolver σ) (strip : Bool) (driver : Driver σ) (inner : Block.Inner σ)
    (t : Block.Template) (scope : NodeId) (verbatim : Bool) : Step Error σ Unit := do
  let anchor ← resolve t scope
  expandBody driver inner t (verbatim || t.kind = .ignoreStart) anchor
  Step.change (Block.removeAnchor strip anchor)

/-- Removes the anchor of a block. -/
def removeOneVia (resolve : Resolver σ) (strip : Bool) (t : Block.Template) (scope : NodeId) :
    Step Error σ Unit := do
  let anchor ← resolve t scope
  Step.change (Block.removeAnchor strip anchor)

/-- Expands the blocks that are selected, and removes the anchors of the others. -/
def expandAllVia (resolve : Resolver σ) (strip : Bool) (driver : Driver σ) :
    Forest Block.Template → Nat → Block.Selection → NodeId → Bool → Step Error σ Unit
  | .nil, _, _, _, _ => return ()
  | .cons t inner rest, i, select, scope, verbatim => do
    if select i t.kind then
      expandOneVia resolve strip driver (expandAllVia resolve strip driver inner 0) t scope verbatim
    else removeOneVia resolve strip t scope
    expandAllVia resolve strip driver rest (i + 1) select scope verbatim

theorem expandOneVia_resolveAnchor (strip : Bool) (driver : Driver σ) (inner : Block.Inner σ) :
    expandOneVia Block.resolveAnchor strip driver inner = Block.expandOne strip driver inner := by
  funext t scope verbatim
  unfold expandOneVia Block.expandOne expandBody
  congr 1
  funext anchor
  split
  · rfl
  · split
    · next h => simp only [h, if_true, bind_assoc]
    · next h => simp only [h, Bool.false_eq_true, if_false]

theorem expandAllVia_resolveAnchor (strip : Bool) (driver : Driver σ) :
    expandAllVia Block.resolveAnchor strip driver = Block.expandAll strip driver := by
  funext T
  induction T with
  | nil => rfl
  | cons t inner rest ihi ihr =>
    funext i select scope verbatim
    simp only [expandAllVia, Block.expandAll, expandOneVia_resolveAnchor, ihi, ihr, removeOneVia]
    split <;> simp

/-! ## Lookups -/

section Lookup

variable {d : Document} {scope : NodeId} {mute : List String} {ss : List Sign} {t : Block.Template}
  {w : Workspace σ} {I : List String → List Sign → Prop} {E : Error → Prop}

/-- Whether a lookup ends well: a node with the anchor of the block is found, or it fails as `E`
says. -/
def Resolver.Ends (resolve : Resolver σ) (E : Error → Prop) (t : Block.Template) (scope : NodeId)
    (w : Workspace σ) : Prop :=
  (∃ node ∈ (w.document.treeAt scope).toList, t.anchor.isOn node.label = true ∧
    resolve t scope w = .ok node.id w) ∨ ∃ e, E e ∧ resolve t scope w = .error e w

/-- Whether lookups end well in scopes of which `I` says what is still to be looked up. -/
def Resolver.Finds (resolve : Resolver σ) (mute : List String) (I : List String → List Sign → Prop)
    (E : Error → Prop) : Prop :=
  ∀ {w : Workspace σ} {scope : NodeId} {ss : List Sign} {t : Block.Template} {ids : List String},
    Scoped w.document scope mute ss → I (t.anchor.id :: ids) ss → resolve.Ends E t scope w

theorem resolveAnchor_eq (t : Block.Template) (scope : NodeId) (w : Workspace σ) :
    Block.resolveAnchor t scope w =
      match t.anchor.resolve? w.document scope with
      | some anchor => .ok anchor w
      | none => .error (.insertionPointMissing t.anchor.id) w := by
  show (match t.anchor.resolve? w.document scope with
    | some anchor => (pure anchor : Step Error σ NodeId)
    | none => throw (Error.insertionPointMissing t.anchor.id)) w = _
  cases t.anchor.resolve? w.document scope <;> rfl

theorem resolveOnly_eq (t : Block.Template) (scope : NodeId) (w : Workspace σ) :
    resolveOnly t scope w =
      match (w.document.treeAt scope).toList.filter (t.anchor.isOn ·.label) with
      | [node] => .ok node.id w
      | _ => .error (.insertionPointMissing t.anchor.id) w := by
  show (match (w.document.treeAt scope).toList.filter fun node : Node => t.anchor.isOn node.label with
    | [node] => (pure node.id : Step Error σ NodeId)
    | _ => throw (Error.insertionPointMissing t.anchor.id)) w = _
  generalize (w.document.treeAt scope).toList.filter (fun node => t.anchor.isOn node.label) = nodes
  rcases nodes with _ | ⟨node, _ | ⟨m, l⟩⟩ <;> rfl

/-- The one anchor of a scope is found. -/
theorem ends_resolveOnly (hS : Scoped w.document scope mute ss)
    (hone : (anchorIds ss).count t.anchor.id = 1) :
    Resolver.Ends (resolveOnly : Resolver σ) E t scope w := by
  have hcount := countP_isOn hS.sound t.kind t.number
  rw [hS.signs_eq] at hcount
  have hmem : 0 < (labels (w.document.treeAt scope)).toList.countP t.anchor.isOn := by
    rw [Block.Template.anchor, hcount]
    exact Nat.lt_of_lt_of_eq Nat.one_pos hone.symm
  rw [labels, toList_map, List.countP_map, List.countP_pos_iff] at hmem
  obtain ⟨node, hmem, hon⟩ := hmem
  have hfilter : (w.document.treeAt scope).toList.filter (t.anchor.isOn ·.label) = [node] :=
    filter_isOn hS.sound hmem hon (by rw [hS.signs_eq]; exact hone)
  refine .inl ⟨node, hmem, hon, ?_⟩
  rw [resolveOnly_eq, hfilter]

end Lookup

/-! ## Rules -/

section Rules

variable {resolve : Resolver σ} {strip : Bool} {driver : Driver σ} {inner : Block.Inner σ}
  {t : Block.Template} {scope : NodeId} {verbatim : Bool} {mute : List String}
  {u v : List Sign} {d₀ : Document} {w : Workspace σ} {R : Forest Label → σ → Prop}
  {E : Error → Workspace σ → Prop}

/-- Whether trees that satisfy `R` have been put between `left` and `right`. -/
def Filled (d₀ : Document) (scope : NodeId) (up : List (Frame Node)) (left right : Forest Node)
    (R : Forest Label → σ → Prop) (w : Workspace σ) : Prop :=
  d₀.Within w.document scope ∧
    ∃ f, w.document.treeAt scope = wrap up (left ++ (f ++ right)) ∧ R (labels f) w.state

theorem Inserted.filled {up : List (Frame Node)} {left right : Forest Node} {last : NodeId}
    (h : Inserted d₀ scope up left right R last w) : Filled d₀ scope up left right R w := by
  obtain ⟨hw, f, hc, hR⟩ := h
  exact ⟨hw, f, by rw [hc.treeAt_eq, append_assoc], hR⟩

/-- A node with the anchor of a block shows it. -/
theorem signOf_isOn {l : Label} (cs : Forest Label) (h : t.anchor.isOn l = true) :
    l.isLandmark = true ∧ Sign.of l cs = .anchor t.anchor.id := by
  have ha : l.isAnchor = true := isAnchor_of_isOn h
  refine ⟨isLandmark_of_isAnchor ha, ?_⟩
  rw [InsertionPoint.isOn, beq_iff_eq] at h
  rw [Sign.of, if_pos ha, h, Option.getD_some]

/-- Expanding one block puts the signs of what its body has put in into the place of its anchor. -/
theorem runs_expandOne {ss : List Sign} {F : Error → Prop} (hw : d₀.Within w.document scope)
    (wf₀ : d₀.WellFormed) (hs : scope ∈ d₀.ids) (hS : Scoped w.document scope mute ss)
    (hends : resolve.Ends F t scope w) (hE : ∀ e, F e → E e w)
    (hbody : ∀ n up left right, w.document.Cursor scope n up left right →
      Runs (expandBody driver inner t (verbatim || t.kind = .ignoreStart) n) w
        (fun _ => Filled d₀ scope up left right R) E)
    (hR : ∀ f s, R f s → Sound mute f) :
    Runs (expandOneVia resolve strip driver inner t scope verbatim) w
      (fun _ w' => d₀.Within w'.document scope ∧ ∃ u v f ss', ss = u ++ .anchor t.anchor.id :: v ∧
        R f w'.state ∧ Scoped w'.document scope mute ss' ∧ Sheds strip (u ++ (signs f ++ v)) ss') E := by
  rcases hends with ⟨a, hmem, hon, hfound⟩ | ⟨e, he, hfound⟩
  swap
  · show Runs (resolve t scope >>= _) w _ E
    refine Runs.bind (Q := fun _ _ => False) ?_ (fun _ _ h => h.elim)
    rw [Runs, hfound]
    exact hE e he
  have hland := (signOf_isOn nil hon).1
  obtain ⟨fr, up, l, as, r, x, z, ht, ha, rfl⟩ := hS.exists_spot_of_mem hmem hland
  rw [(signOf_isOn _ hon).2] at hS ⊢
  refine Runs.bind (E := E) (Q := fun n w' => n = a.id ∧ w' = w) ?_ ?_
  · rw [Runs, hfound]
    exact ⟨rfl, rfl⟩
  rintro n w' ⟨hn, hw'⟩
  subst hn hw'
  have hcursor : w'.document.Cursor scope a.id (fr :: up) (l ++ tree a as) r :=
    ⟨by rw [ht, append_assoc]; rfl, by simp, l, a, as, rfl, rfl⟩
  refine (hbody a.id (fr :: up) (l ++ tree a as) r hcursor).bind ?_
  rintro - w₁ ⟨hw₁, f, ht₁, hf⟩
  rw [append_assoc] at ht₁
  have hin := hS.sound
  rw [ht] at hin
  have hparts := hin.of_wrap
  rw [labels_append, labels_cons, sound_append, sound_cons] at hparts
  have hS₁ := hS.change hw₁.grows.wellFormed ht ht₁ ha (by
    rw [labels_append, labels_append, labels_append, sound_append, sound_append, sound_append]
    exact ⟨hparts.1, hparts.2.1, hR _ _ hf, hparts.2.2⟩)
  obtain ⟨hw₂, ss', hS₂, hsheds⟩ := removeAnchor_spec strip hw₁ wf₀ hs hS₁ ht₁ ha
  refine runs_change ⟨hw₂, x ++ signs (labels l), signs (labels r) ++ z, labels f, ss', rfl, hf, hS₂, ?_⟩
  have hsigns : x ++ (signs (labels (l ++ (f ++ r))) ++ z) =
      x ++ signs (labels l) ++ (signs (labels f) ++ (signs (labels r) ++ z)) := by
    rw [labels_append, labels_append, signs_append, signs_append]
    simp
  rw [← hsigns]
  exact hsheds

/-- Removing an anchor. -/
theorem runs_removeOne {ss : List Sign} {F : Error → Prop} (hw : d₀.Within w.document scope)
    (wf₀ : d₀.WellFormed) (hs : scope ∈ d₀.ids) (hS : Scoped w.document scope mute ss)
    (hends : resolve.Ends F t scope w) (hE : ∀ e, F e → E e w) :
    Runs (removeOneVia resolve strip t scope) w
      (fun _ w' => d₀.Within w'.document scope ∧ w'.state = w.state ∧ ∃ u v ss',
        ss = u ++ .anchor t.anchor.id :: v ∧ Scoped w'.document scope mute ss' ∧
        Sheds strip (u ++ v) ss') E := by
  rcases hends with ⟨a, hmem, hon, hfound⟩ | ⟨e, he, hfound⟩
  swap
  · refine Runs.bind (Q := fun _ _ => False) ?_ (fun _ _ h => h.elim)
    rw [Runs, hfound]
    exact hE e he
  have hland := (signOf_isOn nil hon).1
  obtain ⟨fr, up, l, as, r, x, z, ht, ha, rfl⟩ := hS.exists_spot_of_mem hmem hland
  rw [(signOf_isOn _ hon).2] at hS ⊢
  refine Runs.bind (E := E) (Q := fun n w' => n = a.id ∧ w' = w) ?_ ?_
  · rw [Runs, hfound]
    exact ⟨rfl, rfl⟩
  rintro n w' ⟨hn, hw'⟩
  subst hn hw'
  obtain ⟨hw₂, ss', hS₂, hsheds⟩ := removeAnchor_spec strip hw wf₀ hs hS ht ha
  refine runs_change ⟨hw₂, rfl, x ++ signs (labels l), signs (labels r) ++ z, ss', rfl, hS₂, ?_⟩
  rw [labels_append, signs_append] at hsheds
  simpa using hsheds

/-! ### What is put behind an anchor -/

variable {content : Block.Template → Forest Label} {T : Forest Block.Template} {n : NodeId}
  {up : List (Frame Node)} {left right : Forest Node}

theorem runs_expandKeyword {keyword : String} (hw : d₀.Within w.document scope)
    (wf₀ : d₀.WellFormed) (hs : scope ∈ d₀.ids) (hc : w.document.Cursor scope n up left right)
    (hnone : Block.keywordLabel? keyword = none → E (.unknownKeyword keyword) w)
    (hsome : ∀ label, Block.keywordLabel? keyword = some label → R (tree label nil) w.state) :
    Runs (Block.expandKeyword keyword n) w (fun _ => Filled d₀ scope up left right R) E := by
  unfold Block.expandKeyword
  split
  · next hk => exact runs_throw (hnone hk)
  · next label hk =>
    refine Runs.bind (E := E) (Q := fun m w₁ => m = w.document.freshId ∧
      w₁ = ⟨w.document.addCopies (tree label nil), w.state⟩) (runs_changeGet ⟨rfl, rfl⟩) ?_
    rintro m w₁ ⟨rfl, rfl⟩
    obtain ⟨l, a, as, hleft, rfl, ht⟩ := hc.exists_eq
    obtain ⟨fr, up', rfl⟩ := List.exists_cons_of_ne_nil hc.up_ne_nil
    have hmakes := Document.makes_addCopies hw.grows.wellFormed label nil
    obtain ⟨hw₁, ht₁⟩ := hmakes.insertAfter_spec hw wf₀ hs ht
    refine runs_change ⟨hw₁, tree ⟨w.document.freshId, label⟩
      (identify (w.document.fresh + 1) nil), ?_, ?_⟩
    · rw [hleft, append_assoc]
      exact ht₁
    · rw [labels_tree, labels_identify]
      exact hsome label hk

/-- Whether a plan for the expansion of a block puts in trees that satisfy `R`. With a number of
items, `I` holds of what has been put in after each of them. -/
def Plans (driver : Driver σ) (inner : Block.Inner σ) (content : Block.Template → Forest Label)
    (t : Block.Template) (T : Forest Block.Template) (s : σ) (R : Forest Label → σ → Prop)
    (E : Error → Workspace σ → Prop) : Expansion → Prop
  | .branch choice => Fills driver inner (.branch choice) false content t T s R E
  | .repeated 0 => Fills driver inner .otherwise false content t T s R E
  | .repeated count => ∃ I : Nat → Forest Label → σ → Prop, I 0 nil s ∧
      (∀ k f s e s', k < count → I k f s →
        driver.enterItem t.block.start.directive k s = .error e s' → ∀ d, E (.binding e) ⟨d, s'⟩) ∧
      (∀ k f s s', k < count → I k f s →
        driver.enterItem t.block.start.directive k s = .ok () s' →
        Fills driver inner (.item (k + 1 == count)) false content t T s'
          (fun g s => I (k + 1) (f ++ g) (driver.leaveItem s))
          fun e w => E e { w with state := driver.leaveItem w.state }) ∧
      ∀ f s, I count f s → R f s

theorem runs_insertPlanned {plan : Expansion} (hw : d₀.Within w.document scope)
    (wf₀ : d₀.WellFormed) (hs : scope ∈ d₀.ids) (hc : w.document.Cursor scope n up left right)
    (hT : Holds d₀ scope content (cons t T nil))
    (hplan : Plans driver inner content t T w.state R E plan) :
    Runs (Block.insertPlanned driver inner t n plan) w (Inserted d₀ scope up left right R) E := by
  unfold Block.insertPlanned
  split
  · exact runs_insertInstance hw wf₀ hs hc (hT.within hw wf₀) hplan
  · exact runs_insertInstance hw wf₀ hs hc (hT.within hw wf₀) hplan
  · next count hcount =>
    have hcases : ∃ I : Nat → Forest Label → σ → Prop, I 0 nil w.state ∧
        (∀ k f s e s', k < count → I k f s →
          driver.enterItem t.block.start.directive k s = .error e s' → ∀ d, E (.binding e) ⟨d, s'⟩) ∧
        (∀ k f s s', k < count → I k f s →
          driver.enterItem t.block.start.directive k s = .ok () s' →
          Fills driver inner (.item (k + 1 == count)) false content t T s'
            (fun g s => I (k + 1) (f ++ g) (driver.leaveItem s))
            fun e w => E e { w with state := driver.leaveItem w.state }) ∧
        ∀ f s, I count f s → R f s := by
      cases count with
      | zero => exact absurd rfl hcount
      | succ count => exact hplan
    obtain ⟨I, h₀, hfail, hfill, hI⟩ := hcases
    refine (runs_insertItems I hw wf₀ hs hc hT h₀ hfail hfill).mono ?_ fun _ _ h => h
    rintro last w' ⟨hw', f, hc', hf⟩
    exact ⟨hw', f, hc', hI _ _ hf⟩

/-- Whether the driver is asked how to expand a block. -/
def isPlanned (t : Block.Template) (verbatim : Bool) : Bool :=
  (t.kind = .collectionStart || t.kind = .conditionStart) && !verbatim

theorem runs_expandBody (hw : d₀.Within w.document scope) (wf₀ : d₀.WellFormed)
    (hs : scope ∈ d₀.ids) (hc : w.document.Cursor scope n up left right)
    (hT : Holds d₀ scope content (cons t T nil))
    (hunknown : t.kind = .inlineKeyword → Block.keywordLabel? t.block.start.directive.expression = none →
      E (.unknownKeyword t.block.start.directive.expression) w)
    (hkeyword : ∀ label, t.kind = .inlineKeyword →
      Block.keywordLabel? t.block.start.directive.expression = some label → R (tree label nil) w.state)
    (hfail : ∀ e s, isPlanned t verbatim = true →
      driver.plan t.block.start.directive w.state = .error e s → E (.binding e) ⟨w.document, s⟩)
    (hplan : ∀ plan s, isPlanned t verbatim = true →
      driver.plan t.block.start.directive w.state = .ok plan s →
      Plans driver inner content t T s R E plan)
    (hall : t.kind ≠ .inlineKeyword → isPlanned t verbatim = false →
      Fills driver inner .all verbatim content t T w.state R E) :
    Runs (expandBody driver inner t verbatim n) w (fun _ => Filled d₀ scope up left right R) E := by
  unfold expandBody
  split
  · next hk => exact runs_expandKeyword hw wf₀ hs hc (hunknown hk) fun label => hkeyword label hk
  · next hk =>
    split
    · next hp =>
      refine Runs.bind (E := E) (Q := fun plan w₁ => w₁.document = w.document ∧
        driver.plan t.block.start.directive w.state = .ok plan w₁.state) ?_ ?_
      · exact Runs.ask (runs_onState (fun plan s he => ⟨rfl, he⟩) fun e s he => hfail e s hp he)
      · rintro plan ⟨d, s⟩ ⟨hd, he⟩
        subst hd
        exact ((runs_insertPlanned (w := ⟨w.document, s⟩) hw wf₀ hs hc hT
          (hplan plan s hp he)).mono (fun _ _ h => h.filled) fun _ _ h => h).discard
    · next hp =>
      rw [Bool.not_eq_true] at hp
      exact ((runs_insertInstance hw wf₀ hs hc (hT.within hw wf₀) (hall hk hp)).mono
        (fun _ _ h => h.filled) fun _ _ h => h).discard

end Rules

end WordTemplate
