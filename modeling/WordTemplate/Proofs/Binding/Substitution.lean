import WordTemplate.Binding.Model
import WordTemplate.Proofs.Binding.Step
import WordTemplate.Proofs.Word.Entries

/-!
# Substitution

A driver that only rewrites placeholders changes the texts of a scope and none of its anchors. Where
every text has at most one mark, the placeholders that were written into are no placeholders any
more.

* `writeValue_chart`: one text is replaced by the lines of a value.
* `Rewrites.rewritten`: any number of placeholders may be rewritten, in any order.
* `Rewritten.isPlaceholder_eq_false`: if all were, none is left.
* `ModelBinding.rewritesPlaceholders`: the driver of a model does nothing else.
-/

namespace WordTemplate

open Xml Forest Binding

/-! ## Placeholders of a chart -/

namespace Sign

/-- Whether this is the text of a placeholder. -/
def isPlaceholder : Sign → Bool
  | .text marks _ => markKind? marks == some .placeholder
  | .anchor _ => false

/-- Whether this is an anchor or a text with at most one mark. -/
def IsTidy : Sign → Prop
  | .text marks _ => marks.tail = []
  | .anchor _ => True

theorem isTidy_iff {s : Sign} : s.IsTidy ↔ ∀ m ∈ s.marks?, m.tail = [] := by
  cases s <;> simp [IsTidy, marks?]

theorem isAnchor_eq_false_of_isPlaceholder {s : Sign} (h : s.isPlaceholder = true) :
    s.isAnchor = false := by
  cases s with
  | text marks content => rfl
  | anchor id => cases h

end Sign

section Charted

variable {d₀ d d' : Document} {root n : NodeId} {mute : List String} {ls ls' u v : List Landmark}
  {x : Landmark} {marks : List String} {s : String}

theorem Charted.mark?_eq (h : Charted d root mute (u ++ x :: v)) (hx : x.sign = .text marks s) :
    d.mark? x.node = markKind? marks := by
  obtain ⟨fr, up, l, a, as, r, hat⟩ := h.exists_stands
  obtain ⟨-, -, rfl, -⟩ := hat.text hx
  have hlabel : d.label? a.id = some a.label := by
    rw [Document.label?, h.wellFormed.treeAt_of_spot hat.treeAt_eq]
    rfl
  rw [Document.mark?, hat.eq, hlabel, Option.bind_some, WordTemplate.mark?_eq]

theorem Charted.mem_placeholders (h : Charted d root mute ls) :
    n ∈ d.placeholders root ↔ ∃ x ∈ ls, x.node = n ∧ x.sign.isPlaceholder = true := by
  rw [Document.placeholders, Document.textElements, textElements_eq h.sound, h.landmarks_eq,
    List.mem_filter, List.mem_map]
  constructor
  · rintro ⟨⟨x, hx, rfl⟩, hmark⟩
    obtain ⟨hx, htext⟩ := List.mem_filter.mp hx
    refine ⟨x, hx, rfl, ?_⟩
    obtain ⟨u, v, rfl⟩ := List.append_of_mem hx
    cases hsign : x.sign with
    | anchor id => simp [hsign, Sign.isAnchor] at htext
    | text marks s => rwa [h.mark?_eq hsign] at hmark
  · rintro ⟨x, hx, rfl, hp⟩
    refine ⟨⟨x, List.mem_filter.mpr ⟨hx, ?_⟩, rfl⟩, ?_⟩
    · rw [Sign.isAnchor_eq_false_of_isPlaceholder hp]
      rfl
    · obtain ⟨u, v, rfl⟩ := List.append_of_mem hx
      cases hsign : x.sign with
      | anchor id => simp [hsign, Sign.isPlaceholder] at hp
      | text marks s =>
        rw [hsign] at hp
        rwa [h.mark?_eq hsign]

/-! ## One value -/

/-- Writing a value puts its first line in the place of a text, and the others behind it. -/
theorem writeValue_chart (h : d₀.Within d root) (wf₀ : d₀.WellFormed) (hs : root ∈ d₀.ids)
    (hmute : Word.text ∉ mute) (hC : Charted d root mute (u ++ x :: v))
    (hx : x.sign = .text marks s) (value : String) :
    ∃ first others lines, Word.valueLines value = first :: others ∧
      d₀.Within (d.writeValue x.node value) root ∧
      Charted (d.writeValue x.node value) root mute
        (u ++ ⟨x.node, .text marks.tail first, x.path⟩ :: (lines ++ v)) ∧
      lines.map Landmark.sign = others.map (.text []) := by
  obtain ⟨fr, up, l, a, as, r, hat⟩ := hC.exists_stands
  obtain ⟨ha, hn, rfl, -⟩ := hat.text hx
  obtain ⟨he, hm⟩ := hat.isElement hC.sound
  obtain ⟨first, others, cs, f, hlines, hcs, hf, hw, ht⟩ :=
    Document.writeValue_spec h wf₀ hs hat.treeAt_eq he value
  obtain ⟨hl, hsound⟩ := landmarks_text (a := ⟨a.id, writtenLabel a.label⟩) (m := mute)
    (by simpa using hn) (by simpa using ha) (by simpa using hm) hcs
  have hC' := hC.replace hat hw.grows.wellFormed (g := cons ⟨a.id, writtenLabel a.label⟩ cs f) ht (by
    rw [labels_cons, sound_cons, hf]
    exact ⟨hsound, sound_lineForest hmute others⟩)
  rw [landmarks_cons, hl, marks_writtenLabel] at hC'
  rw [hat.eq]
  refine ⟨first, others, (landmarks f).map (·.below (crumbs (fr :: up))), hlines, hw, ?_, ?_⟩
  · simpa [Landmark.below] using hC'
  · rw [← signs_lineForest, ← hf, signs_labels]
    simp

end Charted

/-! ## Any number of values -/

/-- What can be reached by writing values into placeholders that there are in `d` at and below
`root`. The list says which were written into. -/
inductive Rewrites (root : NodeId) (d : Document) : List NodeId → Document → Prop where
  | refl : Rewrites root d [] d
  | write {d' : Document} {ns : List NodeId} {n : NodeId} (value : String) : Rewrites root d ns d' →
      n ∈ d.placeholders root → Rewrites root d (n :: ns) (d'.writeValue n value)

/-- Whether a driver fills in placeholders only by writing values into them. It may leave some alone,
and it may fail. -/
def Binding.Driver.RewritesPlaceholders {σ : Type} (driver : Driver σ) : Prop :=
  ∀ root w, Runs (driver.substitute root) w (fun _ w' => ∃ ns, Rewrites root w.document ns w'.document)
    fun _ w' => ∃ ns, Rewrites root w.document ns w'.document

/-- Whether a driver fills in placeholders by writing values into all of them, unless it fails. -/
def Binding.Driver.FillsPlaceholders {σ : Type} (driver : Driver σ) : Prop :=
  ∀ root w, Runs (driver.substitute root) w
    (fun _ w' => ∃ ns, Rewrites root w.document ns w'.document ∧
      ∀ n ∈ w.document.placeholders root, n ∈ ns)
    fun _ w' => ∃ ns, Rewrites root w.document ns w'.document

theorem Binding.Driver.FillsPlaceholders.rewrites {σ : Type} {driver : Driver σ}
    (h : driver.FillsPlaceholders) : driver.RewritesPlaceholders :=
  fun root w => (h root w).mono (fun _ _ ⟨ns, hr, _⟩ => ⟨ns, hr⟩) fun _ _ he => he

variable {d₀ d d' : Document} {root : NodeId} {mute : List String} {ls ls' : List Landmark}
  {ns : List NodeId}

/-- What rewriting the placeholders `ns` does to a chart. -/
structure Rewritten (ls : List Landmark) (ns : List NodeId) (ls' : List Landmark) : Prop where
  anchorIds_eq : anchorIds (ls'.map Landmark.sign) = anchorIds (ls.map Landmark.sign)
  exists_text : ∀ x ∈ ls, x.sign.isAnchor = false → ∃ y ∈ ls', y.node = x.node ∧ y.sign.isAnchor = false
  isTidy : (∀ x ∈ ls, x.sign.IsTidy) → ∀ y ∈ ls', y.sign.IsTidy
  exists_placeholder : (∀ x ∈ ls, x.sign.IsTidy) → ∀ y ∈ ls', y.sign.isPlaceholder = true →
    (∃ x ∈ ls, x.node = y.node ∧ x.sign = y.sign) ∧ y.node ∉ ns

theorem Rewritten.refl (ls : List Landmark) : Rewritten ls [] ls :=
  ⟨rfl, fun x hx h => ⟨x, hx, rfl, h⟩, fun h => h, fun _ y hy _ => ⟨⟨y, hy, rfl, rfl⟩, by simp⟩⟩

/-- Rewriting one more placeholder. -/
theorem Rewritten.write {u v lines : List Landmark} {y : Landmark} {marks others : List String}
    {s first : String} (h : Rewritten ls ns (u ++ y :: v)) (hnd : ((u ++ y :: v).map Landmark.node).Nodup)
    (hy : y.sign = .text marks s) (hlines : lines.map Landmark.sign = others.map (.text [])) :
    Rewritten ls (y.node :: ns) (u ++ ⟨y.node, .text marks.tail first, y.path⟩ :: (lines ++ v)) := by
  have hline : ∀ z ∈ lines, ∃ content, z.sign = .text [] content := fun z hz => by
    have := hlines ▸ List.mem_map_of_mem (f := Landmark.sign) hz
    obtain ⟨content, -, he⟩ := List.mem_map.mp this
    exact ⟨content, he.symm⟩
  have hlineIds : anchorIds (lines.map Landmark.sign) = [] := by
    rw [hlines, anchorIds, List.filterMap_eq_nil_iff]
    simp [Sign.anchorId?]
  -- The other landmarks are the same as before, and none of them is the node written into.
  have hcases : ∀ z ∈ u ++ ⟨y.node, .text marks.tail first, y.path⟩ :: (lines ++ v),
      (z ∈ u ++ y :: v ∧ z.node ≠ y.node) ∨ z.sign = .text marks.tail first ∨
        ∃ content, z.sign = .text [] content := by
    simp only [List.map_append, List.map_cons, List.nodup_append, List.nodup_cons, List.mem_map,
      List.mem_cons] at hnd
    intro z hz
    simp only [List.mem_append, List.mem_cons] at hz ⊢
    rcases hz with hz | rfl | hz | hz
    · exact .inl ⟨.inl hz, hnd.2.2 _ ⟨z, hz, rfl⟩ _ (.inl rfl)⟩
    · exact .inr (.inl rfl)
    · exact .inr (.inr (hline z hz))
    · exact .inl ⟨.inr (.inr hz), fun he => hnd.2.1.1 ⟨z, hz, he⟩⟩
  refine ⟨?_, fun x hx htext => ?_, fun htidy z hz => ?_, fun htidy z hz hp => ?_⟩
  · rw [← h.anchorIds_eq]
    simp [hy, hlineIds]
  · obtain ⟨z, hz, hnode, hanchor⟩ := h.exists_text x hx htext
    rcases List.mem_append.mp hz with hz | hz
    · exact ⟨z, by simp [hz], hnode, hanchor⟩
    · rcases List.mem_cons.mp hz with rfl | hz
      · exact ⟨_, List.mem_append_right _ (List.mem_cons_self ..), hnode, rfl⟩
      · exact ⟨z, by simp [hz], hnode, hanchor⟩
  · have hmarks := h.isTidy htidy y (by simp)
    rw [hy, Sign.IsTidy] at hmarks
    rcases hcases z hz with ⟨hz, -⟩ | hz | ⟨content, hz⟩
    · exact h.isTidy htidy z hz
    · rw [hz, Sign.IsTidy, hmarks]
      rfl
    · rw [hz]
      rfl
  · have hmarks := h.isTidy htidy y (by simp)
    rw [hy, Sign.IsTidy] at hmarks
    rcases hcases z hz with ⟨hz, hne⟩ | hz | ⟨content, hz⟩
    · obtain ⟨hx, hns⟩ := h.exists_placeholder htidy z hz hp
      exact ⟨hx, by simp [hne, hns]⟩
    · rw [hz, hmarks] at hp
      cases hp
    · rw [hz] at hp
      cases hp

/-- Rewriting placeholders leaves all anchors of the scope. -/
theorem Rewrites.rewritten (hr : Rewrites root d ns d') (h : d₀.Within d root)
    (wf₀ : d₀.WellFormed) (hs : root ∈ d₀.ids) (hC : Charted d root mute ls)
    (hmute : Word.text ∉ mute) :
    d₀.Within d' root ∧ ∃ ls', Charted d' root mute ls' ∧ Rewritten ls ns ls' := by
  induction hr with
  | refl => exact ⟨h, ls, hC, .refl ls⟩
  | @write d' ns n value _ hn ih =>
    obtain ⟨hw, ls', hC', hrewritten⟩ := ih
    obtain ⟨x, hx, rfl, hp⟩ := hC.mem_placeholders.mp hn
    obtain ⟨y, hy, hnode, htext⟩ := hrewritten.exists_text x hx (Sign.isAnchor_eq_false_of_isPlaceholder hp)
    obtain ⟨u, v, rfl⟩ := List.append_of_mem hy
    cases hsign : y.sign with
    | anchor id => simp [hsign, Sign.isAnchor] at htext
    | text marks s =>
      obtain ⟨first, others, lines, -, hw', hC'', hlines⟩ :=
        writeValue_chart hw wf₀ hs hmute hC' hsign value
      rw [← hnode]
      exact ⟨hw', _, hC'', hrewritten.write hC'.nodup hsign hlines⟩

section Fill

variable {ε : Type} {render : String → Except ε (Option String)}

/-- Filling the placeholders of a list, up to the first that fails. -/
def fillEach (render : String → Except ε (Option String)) :
    List NodeId → Document → EStateM.Result ε Document Unit
  | [], d => .ok () d
  | n :: ns, d =>
    match render (d.innerText n) with
    | .error e => .error e d
    | .ok none => fillEach render ns d
    | .ok (some value) => fillEach render ns (d.writeValue n value)

theorem fillPlaceholders_eq (render : String → Except ε (Option String)) (root : NodeId) (d : Document) :
    fillPlaceholders render root d = fillEach render (d.placeholders root) d := by
  show (List.forM _ _ : EStateM ε Document PUnit) d = _
  generalize d.placeholders root = ns
  induction ns generalizing d with
  | nil => rfl
  | cons n ns ih =>
    rw [List.forM, fillEach]
    show EStateM.bind (fun d => (match render (d.innerText n) with
      | .error e => (throw e : EStateM ε Document PUnit)
      | .ok none => pure ()
      | .ok (some value) => modify fun d : Document => d.writeValue n value) d) _ d = _
    simp only [EStateM.bind]
    cases render (d.innerText n) with
    | error e => rfl
    | ok value? =>
      cases value? with
      | none => exact ih d
      | some value => exact ih (d.writeValue n value)

/-- Filling placeholders rewrites them, all of them if each has a value. -/
theorem fillEach_rewrites (render : String → Except ε (Option String)) {todo : List NodeId} (htodo : ∀ n ∈ todo, n ∈ d.placeholders root)
    (h : Rewrites root d ns d') :
    match fillEach render todo d' with
    | .ok _ d'' => ∃ ns', Rewrites root d ns' d'' ∧ (∀ n ∈ ns, n ∈ ns') ∧
        ((∀ text, render text ≠ .ok none) → ∀ n ∈ todo, n ∈ ns')
    | .error _ d'' => ∃ ns', Rewrites root d ns' d'' := by
  induction todo generalizing d' ns with
  | nil => exact ⟨ns, h, fun _ hn => hn, by simp⟩
  | cons n todo ih =>
    have htodo' : ∀ m ∈ todo, m ∈ d.placeholders root := fun m hm => htodo m (List.mem_cons_of_mem n hm)
    rw [fillEach]
    cases hvalue : render (d'.innerText n) with
    | error e => exact ⟨ns, h⟩
    | ok value? =>
      cases value? with
      | none =>
        have hrun := ih htodo' h
        dsimp only
        split at hrun
        · obtain ⟨ns', hr', hsub', -⟩ := hrun
          exact ⟨ns', hr', hsub', fun hrender => absurd hvalue (hrender _)⟩
        · exact hrun
      | some value =>
        have hrun := ih htodo' (h.write value (htodo n (List.mem_cons_self ..)))
        dsimp only
        split at hrun
        · obtain ⟨ns', hr', hsub', hall⟩ := hrun
          refine ⟨ns', hr', fun m hm => hsub' m (List.mem_cons_of_mem n hm), fun hrender m hm => ?_⟩
          rcases List.mem_cons.mp hm with rfl | hm
          · exact hsub' m (List.mem_cons_self ..)
          · exact hall hrender m hm
        · exact hrun

end Fill

section Drivers

variable {σ : Type} {render : σ → String → Except Binding.Error (Option String)} {driver : Driver σ}

/-- The substitution of a driver that goes through the placeholders of a scope. -/
theorem runs_fillPlaceholders {w : Workspace σ}
    (h : driver.substitute root w = Step.onDocument (fillPlaceholders (render w.state) root) w) :
    Runs (driver.substitute root) w
      (fun _ w' => ∃ ns, Rewrites root w.document ns w'.document ∧
        ((∀ text, render w.state text ≠ .ok none) → ∀ n ∈ w.document.placeholders root, n ∈ ns))
      fun _ w' => ∃ ns, Rewrites root w.document ns w'.document := by
  have hrun := fillEach_rewrites (render w.state)
    (fun n hn => hn : ∀ n ∈ w.document.placeholders root, n ∈ w.document.placeholders root) .refl
  rw [Runs, h, Step.onDocument, fillPlaceholders_eq]
  cases he : fillEach (render w.state) (w.document.placeholders root) w.document with
  | ok a d =>
    rw [he] at hrun
    obtain ⟨ns, hr, -, hns⟩ := hrun
    exact ⟨ns, hr, hns⟩
  | error e d =>
    rw [he] at hrun
    exact hrun

theorem rewritesPlaceholders_of_fill (render : σ → String → Except Binding.Error (Option String))
    (h : ∀ root w, driver.substitute root w =
      Step.onDocument (fillPlaceholders (render w.state) root) w) : driver.RewritesPlaceholders :=
  fun root w => (runs_fillPlaceholders (h root w)).mono (fun _ _ ⟨ns, hr, _⟩ => ⟨ns, hr⟩) fun _ _ he => he

/-- A driver with a model only rewrites placeholders. -/
theorem Binding.ModelBinding.rewritesPlaceholders (b : ModelBinding) :
    b.driver.RewritesPlaceholders :=
  rewritesPlaceholders_of_fill b.renderText fun _ _ => rfl

end Drivers

end WordTemplate
