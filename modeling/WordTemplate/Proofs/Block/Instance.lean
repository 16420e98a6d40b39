import WordTemplate.Proofs.Binding.Step
import WordTemplate.Proofs.Block.Extraction
import WordTemplate.Proofs.Word.Writing

/-!
# Instances of a block

An instance of a block's content is put together in a fragment and then moved behind a cursor. The
rules here reduce runs of these steps to what happens in the fragment, `Fills`.

* `runs_instantiate`: an instance has the trees that were in the fragment.
* `runs_insertInstance`, `runs_insertItem`, `runs_insertPlanned`: the trees stand behind the cursor.
-/

namespace WordTemplate

open Xml Forest Binding

variable {σ : Type} {d₀ d d' : Document} {scope : NodeId}
  {content : Block.Template → Forest Label} {T TS : Forest Block.Template} {t : Block.Template}

/-! ## Contents that are kept -/

/-- Whether the contents of all blocks have nothing in common with the tree at `scope` and are what
`content` says. -/
def Holds (d : Document) (scope : NodeId) (content : Block.Template → Forest Label)
    (T : Forest Block.Template) : Prop :=
  ∀ t ∈ T.toList, (∀ n ∈ t.content, d.Apart scope n) ∧ d.contentOf t = content t

theorem holds_cons : Holds d scope content (cons t T TS) ↔
    ((∀ n ∈ t.content, d.Apart scope n) ∧ d.contentOf t = content t) ∧
      Holds d scope content T ∧ Holds d scope content TS := by
  unfold Holds
  simp only [toList, List.mem_cons, List.mem_append, or_imp, forall_and, forall_eq]
  tauto

theorem Holds.within (h : Holds d scope content T) (hw : d.Within d' scope) (wf : d.WellFormed) :
    Holds d' scope content T := by
  intro t ht
  obtain ⟨ha, hc⟩ := h t ht
  exact ⟨fun n hn => hw.apart wf (ha n hn), (hw.contentOf_eq ha).trans hc⟩

/-- The contents are apart from a tree that is new. -/
theorem Holds.new {φ : NodeId} (h : Holds d scope content T) (hext : d.Extends d')
    (wf : d.WellFormed) (hnew : ∀ i ∈ Xml.ids (d'.treeAt φ), d.fresh ≤ i.number) :
    Holds d' φ content T := by
  intro t ht
  obtain ⟨ha, hc⟩ := h t ht
  refine ⟨fun n hn => hext.apart wf hnew (ha n hn).mem_ids, ?_⟩
  rw [← hc, Document.contentOf, Document.contentLabels, Document.contentOf, Document.contentLabels,
    Document.treesAt_congr fun n hn => hext.treeAt_eq n (ha n hn).mem_ids]

/-! ## Instances -/

variable {driver : Driver σ} {inner : Block.Inner σ} {select : Block.Selection} {verbatim : Bool}
  {R : Forest Label → σ → Prop} {E : Error → Workspace σ → Prop} {w : Workspace σ}

/-- What is done in a fragment. -/
def fillFragment (driver : Driver σ) (inner : Block.Inner σ) (select : Block.Selection)
    (verbatim : Bool) (fragment : NodeId) : Step Error σ Unit := do
  if !verbatim then Block.ask (driver.substitute fragment)
  inner select fragment verbatim

/-- Whether a fragment with the content of `t` is filled with trees that satisfy `R`, from the
driver's state `s` on. -/
def Fills (driver : Driver σ) (inner : Block.Inner σ) (select : Block.Selection) (verbatim : Bool)
    (content : Block.Template → Forest Label) (t : Block.Template) (T : Forest Block.Template)
    (s : σ) (R : Forest Label → σ → Prop) (E : Error → Workspace σ → Prop) : Prop :=
  ∀ (w : Workspace σ) (φ : Node) (f : Forest Node), w.state = s → w.document.WellFormed →
    φ.label = .element ⟨Word.fragment, []⟩ → w.document.treeAt φ.id = tree φ f →
    labels f = content t → Holds w.document φ.id content T →
    Runs (fillFragment driver inner select verbatim φ.id) w
      (fun _ w' => w.document.Within w'.document φ.id ∧
        ∃ node g, w'.document.treeAt φ.id = tree node g ∧ R (labels g) w'.state) E

theorem instantiate_eq : Block.instantiate driver inner t verbatim select = (do
    let fragment ← Step.changeGet (·.createElement Word.fragment)
    Step.change (·.appendCopies fragment t.content)
    fillFragment driver inner select verbatim fragment
    Step.changeGet (·.takeChildren fragment)) := by
  cases verbatim <;> simp [Block.instantiate, fillFragment]

theorem runs_instantiate (wf : w.document.WellFormed) (hs : scope ∈ w.document.ids)
    (hT : Holds w.document scope content (cons t T nil))
    (hfill : Fills driver inner select verbatim content t T w.state R E) :
    Runs (Block.instantiate driver inner t verbatim select) w
      (fun ns w' => ∃ f, ns = f.roots.map Node.id ∧ w.document.Extends w'.document ∧
        w'.document.Loose scope f ∧ (∀ i ∈ ids f, w.document.fresh ≤ i.number) ∧
        R (labels f) w'.state) E := by
  rw [holds_cons] at hT
  obtain ⟨⟨hapart, hcontent⟩, hT, -⟩ := hT
  obtain ⟨φ, g, hφ, hlabel, hg, hext, htree, hnew⟩ := Document.exists_fragment
    Word.fragment wf fun n hn => (hapart n hn).mem_ids
  have hnew' : ∀ i ∈ ids (((w.document.createElement Word.fragment).2.appendCopies φ.id
      t.content).treeAt φ.id), w.document.fresh ≤ i.number := by
    rwa [htree]
  rw [instantiate_eq]
  refine Runs.bind (E := E) (Q := fun n w₁ => n = φ.id ∧ w₁.document = (w.document.createElement
    Word.fragment).2 ∧ w₁.state = w.state) (runs_changeGet ⟨hφ, rfl, rfl⟩) ?_
  rintro n w₁ ⟨rfl, hd₁, hs₁⟩
  refine Runs.bind (Q := fun _ w₂ => w₂.document = (w.document.createElement
    Word.fragment).2.appendCopies φ.id t.content ∧ w₂.state = w.state)
    (runs_change ⟨by simp [hd₁], hs₁⟩) ?_
  rintro - w₂ ⟨hd₂, hs₂⟩
  rw [← hd₂] at hext htree hnew'
  refine (hfill w₂ φ g hs₂ hext.grows.wellFormed hlabel htree (hg.trans hcontent)
    (hT.new hext wf hnew')).bind ?_
  rintro - w₃ ⟨hw, node, f, htree₃, hR⟩
  have hext₃ := hext.within wf hnew' hw
  obtain ⟨hns, hext₄, hloose⟩ := Document.takeChildren_spec wf hext₃ htree₃ (fun i hi => by
    rw [← htree₃] at hi
    rcases hw.mem_or_fresh i hi with hi | hi
    · exact hnew' i hi
    · exact Nat.le_trans hext.grows.fresh_le hi) hs
  refine runs_changeGet ⟨f, hns, hext₄, hloose, fun i hi => ?_, hR⟩
  have hi' : i ∈ ids (w₃.document.treeAt φ.id) := by
    rw [htree₃]
    simp [hi]
  rcases hw.mem_or_fresh i hi' with hi | hi
  · exact hnew' i hi
  · exact Nat.le_trans hext.grows.fresh_le hi

/-! ## Instances behind a cursor -/

variable {n : NodeId} {up : List (Frame Node)} {left right : Forest Node}

/-- Whether trees that satisfy `R` have been put behind `left`, and the cursor stands at the last of
them. -/
def Inserted (d₀ : Document) (scope : NodeId) (up : List (Frame Node)) (left right : Forest Node)
    (R : Forest Label → σ → Prop) (last : NodeId) (w : Workspace σ) : Prop :=
  d₀.Within w.document scope ∧
    ∃ f, w.document.Cursor scope last up (left ++ f) right ∧ R (labels f) w.state

theorem insertAll_of_loose {f : Forest Node} (hw : d₀.Within w.document scope)
    (wf₀ : d₀.WellFormed) (hc : w.document.Cursor scope n up left right)
    (hf : w.document.Loose scope f) (hnew : ∀ i ∈ ids f, d₀.fresh ≤ i.number)
    (hR : R (labels f) w.state) :
    Runs (Step.changeGet (·.insertAllAfter n (f.roots.map Node.id)) : Step Error σ NodeId) w
      (Inserted d₀ scope up left right R) E := by
  obtain ⟨last, d', hrun, hw', -, hc'⟩ := Document.insertAllAfter_spec hw wf₀ hc hf hnew
  refine runs_changeGet ?_
  rw [hrun]
  exact ⟨hw', f, hc', hR⟩

theorem runs_insertInstance (hw : d₀.Within w.document scope) (wf₀ : d₀.WellFormed)
    (hs : scope ∈ d₀.ids) (hc : w.document.Cursor scope n up left right)
    (hT : Holds w.document scope content (cons t T nil))
    (hfill : Fills driver inner select verbatim content t T w.state R E) :
    Runs (Block.insertInstance driver inner t verbatim select n) w
      (Inserted d₀ scope up left right R) E := by
  have hs' := hw.grows.mem_ids _ hs
  refine (runs_instantiate hw.grows.wellFormed hs' hT hfill).bind ?_
  rintro ns w' ⟨f, rfl, hext, hloose, hnew, hR⟩
  refine insertAll_of_loose (hw.trans (hext.toWithin hs') wf₀) wf₀ ?_ hloose
    (fun i hi => Nat.le_trans hw.grows.fresh_le (hnew i hi)) hR
  exact ⟨(hext.treeAt_eq _ hs').trans hc.treeAt_eq, hc.up_ne_nil, hc.left_eq⟩

theorem runs_insertItem {count index : Nat} (hw : d₀.Within w.document scope)
    (wf₀ : d₀.WellFormed) (hs : scope ∈ d₀.ids)
    (hc : w.document.Cursor scope n up left right)
    (hT : Holds w.document scope content (cons t T nil))
    (hfail : ∀ e s, driver.enterItem t.block.start.directive index w.state = .error e s →
      E (.binding e) { w with state := s })
    (hfill : ∀ s, driver.enterItem t.block.start.directive index w.state = .ok () s →
      Fills driver inner (.item (index + 1 == count)) false content t T s
        (fun f s => R f (driver.leaveItem s))
        fun e w => E e { w with state := driver.leaveItem w.state }) :
    Runs (Block.insertItem driver inner t count n index) w
      (Inserted d₀ scope up left right R) E := by
  have hs' := hw.grows.mem_ids _ hs
  unfold Block.insertItem
  refine Runs.bind (Q := fun _ w₁ => w₁.document = w.document ∧
    driver.enterItem t.block.start.directive index w.state = .ok () w₁.state) ?_ ?_
  · refine Runs.ask (runs_onState (fun _ s he => ⟨rfl, he⟩) fun e s he => hfail e s he)
  · rintro - ⟨d₁, s⟩ ⟨rfl, he⟩
    refine Runs.bind (E := E) (Q := fun ns w₂ => ∃ f, ns = f.roots.map Node.id ∧
      w.document.Extends w₂.document ∧ w₂.document.Loose scope f ∧
      (∀ i ∈ ids f, w.document.fresh ≤ i.number) ∧ R (labels f) w₂.state) ?_ ?_
    · exact Runs.thenLeave (runs_instantiate (w := ⟨w.document, s⟩) hw.grows.wellFormed hs' hT
        (hfill s he))
    · rintro ns w' ⟨f, rfl, hext, hloose, hnew, hR⟩
      refine insertAll_of_loose (hw.trans (hext.toWithin hs') wf₀) wf₀ ?_ hloose
        (fun i hi => Nat.le_trans hw.grows.fresh_le (hnew i hi)) hR
      exact ⟨(hext.treeAt_eq _ hs').trans hc.treeAt_eq, hc.up_ne_nil, hc.left_eq⟩

/-- One instance for each of `count` items. `I` holds of what has been put in after each of them. -/
theorem runs_insertItems {count : Nat} (I : Nat → Forest Label → σ → Prop)
    (hw : d₀.Within w.document scope) (wf₀ : d₀.WellFormed) (hs : scope ∈ d₀.ids)
    (hc : w.document.Cursor scope n up left right) (hT : Holds d₀ scope content (cons t T nil))
    (hI : I 0 nil w.state)
    (hfail : ∀ k f s e s', k < count → I k f s →
      driver.enterItem t.block.start.directive k s = .error e s' → ∀ d, E (.binding e) ⟨d, s'⟩)
    (hfill : ∀ k f s s', k < count → I k f s →
      driver.enterItem t.block.start.directive k s = .ok () s' →
      Fills driver inner (.item (k + 1 == count)) false content t T s'
        (fun g s => I (k + 1) (f ++ g) (driver.leaveItem s))
        fun e w => E e { w with state := driver.leaveItem w.state }) :
    Runs ((List.range count).foldlM (Block.insertItem driver inner t count) n) w
      (Inserted d₀ scope up left right (I count)) E := by
  have hstart : Inserted d₀ scope up left right (I 0) n w :=
    ⟨hw, nil, by rwa [append_nil], hI⟩
  have := runs_foldlM (f := Block.insertItem driver inner t count) (E := E)
    (fun u last w' => Inserted d₀ scope up left right (I u.length) last w') (List.range count) hstart
  rw [List.length_range] at this
  refine this ?_
  rintro u k v last w' hl ⟨hw', f, hc', hf⟩
  obtain ⟨rfl, hk⟩ : k = u.length ∧ u.length < count := by
    have hlen := congrArg List.length hl
    have hget := congrArg (·[u.length]?) hl
    simp only [List.length_range, List.length_append, List.length_cons] at hlen
    have hlt : u.length < count := by omega
    simp only [List.getElem?_range hlt, List.getElem?_append_right (Nat.le_refl _), Nat.sub_self,
      List.getElem?_cons_zero, Option.some.injEq] at hget
    exact ⟨hget.symm, hlt⟩
  refine (runs_insertItem (R := fun g s => I (u.length + 1) (labels f ++ g) s) hw' wf₀ hs hc'
    (hT.within hw' wf₀) (fun e s he => ?_) fun s he => ?_).mono ?_ fun _ _ h => h
  · exact hfail u.length (labels f) w'.state e s hk hf he w'.document
  · exact hfill u.length (labels f) w'.state s hk hf he
  · rintro last' w₂ ⟨hw₂, g, hc₂, hg⟩
    refine ⟨hw₂, f ++ g, by rwa [← append_assoc], ?_⟩
    rw [List.length_append, labels_append]
    exact hg

end WordTemplate
