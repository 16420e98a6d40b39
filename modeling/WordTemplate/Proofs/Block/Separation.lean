import WordTemplate.Proofs.Block.Log
import WordTemplate.Proofs.Xml.Unchanged

/-!
# Contents and instances do not meet

The contents of blocks stay as they are while blocks are expanded, and every instance is made of nodes of
its own. Both follow from one fact: whatever is done in the course of an expansion is done outside of each
part of the document that is apart from the scope. Applied to the contents it says that they stay; applied
to all nodes that are there when an instance is begun, that the instance is made of new nodes.

* `Logged.Keeps`: a step that leaves a part of the document alone, with what is known of its log.
* `Logged.keeps_instantiate`: an instance is made of new nodes.
* `Logged.keeps_expandAll`: expanding blocks.
-/

namespace WordTemplate

open Xml Forest Binding

variable {σ α β γ : Type}

/-! ## Changes outside of a part -/

namespace Xml.Document.Closed

variable {d : Document} {P : NodeId → Prop} {n φ cursor : NodeId}

theorem leaves_create (hP : d.Closed P) (wf : d.WellFormed) (label : Label) :
    d.Leaves (d.create label).2 P :=
  wf.leaves_addCopies hP.mem_ids _

/-- Putting copies of trees behind the children of a node outside. -/
theorem leaves_appendCopies (hP : d.Closed P) (wf : d.WellFormed) (hφ : φ ∈ d.ids) (hnot : ¬ P φ)
    {ns : List NodeId} (hns : ∀ n ∈ ns, n ∈ d.ids) : d.Leaves (d.appendCopies φ ns) P := by
  induction ns generalizing d with
  | nil => exact .refl wf
  | cons n ns ih =>
    obtain ⟨a, as, rfl, htree⟩ := wf.exists_treeAt (hns n (List.mem_cons_self ..))
    have hlabels : d.labelsAt a.id = tree a.label (labels as) := by
      rw [labelsAt, htree, labels_tree]
    have hmakes := makes_addCopies wf a.label (labels as)
    have hadd := wf.leaves_addCopies hP.mem_ids (tree a.label (labels as))
    have hnew : ¬ P d.freshId := fun h => Nat.lt_irrefl _ (wf.lt_fresh _ (hP.mem_ids _ h))
    have hcopy := hadd.trans (hadd.grows.wellFormed.leaves_append (hP.of_leaves wf hadd).mem_ids
      (hmakes.receives wf hφ) hnew hnot)
    have hrest := ih (hP.of_leaves wf hcopy) hcopy.grows.wellFormed (hcopy.grows.mem_ids φ hφ)
      fun n hn => hcopy.grows.mem_ids n (hns n (List.mem_cons_of_mem _ hn))
    have hfold : d.appendCopies φ (a.id :: ns) =
        ((d.addCopies (tree a.label (labels as))).append φ d.freshId).appendCopies φ ns := by
      rw [appendCopies, List.foldl_cons, copy, hlabels]
      rfl
    rw [hfold]
    exact hcopy.trans hrest

/-- Putting trees from outside behind a node outside, one after another. -/
theorem leaves_insertAllAfter {f : Forest Node} (hP : d.Closed P) (wf : d.WellFormed)
    (hcursor : cursor ∈ d.ids) (hnot : ¬ P cursor) (hf : d.Parted f) (hmem : cursor ∉ Xml.ids f)
    (houtside : ∀ i ∈ Xml.ids f, ¬ P i) :
    d.Leaves (d.insertAllAfter cursor (f.roots.map Node.id)).2 P ∧
      (d.insertAllAfter cursor (f.roots.map Node.id)).1 ∈
        (d.insertAllAfter cursor (f.roots.map Node.id)).2.ids ∧
      ¬ P (d.insertAllAfter cursor (f.roots.map Node.id)).1 := by
  induction f generalizing d cursor with
  | nil => exact ⟨.refl wf, hcursor, hnot⟩
  | cons node cs rest _ ih =>
    have hr := hf.receives wf hcursor hmem
    have hnode := houtside node.id (by simp)
    have hstep : d.Leaves (d.insertAfter cursor node.id) P :=
      wf.leaves_insertBeside hP.mem_ids hr (fun _ _ => .inr rfl) hnode (hP.clear hnot)
    have hnd := hf.nodup
    rw [ids_cons, List.nodup_cons, List.mem_append, not_or] at hnd
    obtain ⟨hrest, hlast⟩ := ih (hP.of_leaves wf hstep) hstep.grows.wellFormed
      (hstep.grows.mem_ids _ hr.mem_ids) hnode (hf.insertAfter wf hcursor hmem) hnd.1.2
      fun i hi => houtside i (by simp [hi])
    exact ⟨hstep.trans hrest, hlast⟩

theorem not_of_isAncestor (hP : d.Closed P) (wf : d.WellFormed) (hn : ¬ P n) {p : NodeId}
    (hp : d.isAncestor p n = true) : ¬ P p :=
  fun h => hn ((hP.iff_of_mem_treeAt wf (wf.mem_treeAt_of_isAncestor hp)).mp h)

theorem leaves_removeAnchor (hP : d.Closed P) (wf : d.WellFormed) (hn : ¬ P n) (strip : Bool) :
    d.Leaves (Block.removeAnchor strip n d) P := by
  have hout := wf.leaves_detach (hP.clear hn)
  unfold Block.removeAnchor
  dsimp only
  split
  · next paragraph hparagraph =>
    split
    · rw [detachEmptyParagraph]
      split
      · -- The paragraph was above the anchor.
        have hmem := List.mem_of_find?_eq_some hparagraph
        have hnot := hP.not_of_isAncestor wf hn (p := paragraph) (by simpa [isAncestor] using hmem)
        exact hout.trans (hout.grows.wellFormed.leaves_detach ((hP.of_leaves wf hout).clear hnot))
      · exact hout
    · exact hout
  · exact hout

end Xml.Document.Closed

/-! ## Logs -/

/-- Whether the instances of a log were made one after the other and one within the other, the first one
when `first` was the number of the next new node, the last one when it was `last`. -/
def Chronological : Nat → Forest Instance → Nat → Prop
  | first, .nil, last => first ≤ last
  | first, .cons x inner rest, last =>
    first ≤ x.before.fresh ∧ Chronological x.before.fresh inner x.after.fresh ∧
      Chronological x.after.fresh rest last

theorem Chronological.append {F G : Forest Instance} {i j k : Nat} (hF : Chronological i F j)
    (hG : Chronological j G k) : Chronological i (F ++ G) k := by
  induction F generalizing i with
  | nil =>
    cases G with
    | nil => exact Nat.le_trans hF hG
    | cons x inner rest => exact ⟨Nat.le_trans hF hG.1, hG.2⟩
  | cons x inner rest _ ih => exact ⟨hF.1, hF.2.1, ih hF.2.2⟩

/-- Whether `R` holds of any two values of which neither is above the other, from the first to the second. -/
def Forest.Beside (R : α → α → Prop) : Forest α → Prop
  | nil => True
  | cons a cs rest => (∀ x ∈ a :: cs.toList, ∀ y ∈ rest.toList, R x y) ∧ cs.Beside R ∧ rest.Beside R

/-- The nodes that are made for an instance have the numbers that were new then. -/
theorem Instance.number_of_mem_nodes {x : Instance} {n : NodeId} (h : x.before.Grows x.after)
    (hn : n ∈ x.nodes) : x.before.fresh ≤ n.number ∧ n.number < x.after.fresh := by
  obtain ⟨hmem, hnot⟩ := List.mem_filter.mp hn
  exact ⟨(h.mem_or_fresh n hmem).resolve_left (by simpa using hnot), h.wellFormed.lt_fresh n hmem⟩

namespace Chronological

variable {F : Forest Instance} {first last : Nat}

theorem le (h : Chronological first F last) (hF : ∀ x ∈ F.toList, x.before.Grows x.after) :
    first ≤ last := by
  induction F generalizing first with
  | nil => exact h
  | cons x inner rest _ ih =>
    simp only [toList, List.forall_mem_cons, List.forall_mem_append] at hF
    exact Nat.le_trans h.1 (Nat.le_trans hF.1.fresh_le (ih h.2.2 hF.2.2))

theorem bounds (h : Chronological first F last) (hF : ∀ x ∈ F.toList, x.before.Grows x.after) :
    ∀ x ∈ F.toList, first ≤ x.before.fresh ∧ x.after.fresh ≤ last := by
  induction F generalizing first last with
  | nil => exact fun x hx => by cases hx
  | cons a inner rest ihi ihr =>
    simp only [toList, List.forall_mem_cons, List.forall_mem_append] at hF ⊢
    obtain ⟨ha, hi, hr⟩ := hF
    have hlast := h.2.2.le hr
    refine ⟨⟨h.1, hlast⟩, fun x hx => ?_, fun x hx => ?_⟩
    · obtain ⟨hle, hge⟩ := ihi h.2.1 hi x hx
      exact ⟨Nat.le_trans h.1 hle, Nat.le_trans hge hlast⟩
    · obtain ⟨hle, hge⟩ := ihr h.2.2 hr x hx
      exact ⟨Nat.le_trans h.1 (Nat.le_trans ha.fresh_le hle), hge⟩

/-- Two instances of which neither was made within the other have no node in common. -/
theorem beside (h : Chronological first F last) (hF : ∀ x ∈ F.toList, x.before.Grows x.after) :
    F.Beside fun x y => x.nodes.Disjoint y.nodes := by
  induction F generalizing first last with
  | nil => trivial
  | cons a inner rest ihi ihr =>
    simp only [toList, List.forall_mem_cons, List.forall_mem_append] at hF
    obtain ⟨ha, hi, hr⟩ := hF
    refine ⟨fun x hx y hy n hnx hny => ?_, ihi h.2.1 hi, ihr h.2.2 hr⟩
    obtain ⟨hgrows, hle⟩ : x.before.Grows x.after ∧ x.after.fresh ≤ a.after.fresh := by
      rcases List.mem_cons.mp hx with rfl | hx
      · exact ⟨ha, Nat.le_refl _⟩
      · exact ⟨hi x hx, (h.2.1.bounds hi x hx).2⟩
    have hlt := (Instance.number_of_mem_nodes hgrows hnx).2
    have hge := (Instance.number_of_mem_nodes (hr y hy) hny).1
    have := (h.2.2.bounds hr y hy).1
    omega

end Chronological

/-- What is known of a log: the part `P` of the document was left alone, and `Γ` holds of every
instance. -/
structure Account (Γ : Instance → Prop) (P : NodeId → Prop) (d : Document) (F : Forest Instance)
    (d' : Document) : Prop where
  leaves : d.Leaves d' P
  chronological : Chronological d.fresh F d'.fresh
  each : ∀ x ∈ F.toList, Γ x

section Account

variable {Γ : Instance → Prop} {P Q : NodeId → Prop} {d d' d'' : Document} {F G : Forest Instance}

theorem Account.append (h : Account Γ P d F d') (h' : Account Γ P d' G d'') :
    Account Γ P d (F ++ G) d'' where
  leaves := h.leaves.trans h'.leaves
  chronological := h.chronological.append h'.chronological
  each x hx := by
    rw [toList_append, List.mem_append] at hx
    exact hx.elim (h.each x) (h'.each x)

theorem Account.nil (h : d.Leaves d' P) : Account Γ P d .nil d' :=
  ⟨h, h.grows.fresh_le, by simp [toList]⟩

end Account

namespace Logged

variable {Γ : Instance → Prop} {P P' : NodeId → Prop} {w : Workspace σ} {m : Logged σ α}
  {f : α → Logged σ β} {Q Q' : α → Workspace σ → Prop} {R : β → Workspace σ → Prop}

/-- Whether a step from `w` leaves the part `P` of the document alone, whether it succeeds or not, `Γ`
holds of all instances that it makes, and it ends as `Q` says if it succeeds. -/
structure Keeps (Γ : Instance → Prop) (P : NodeId → Prop) (m : Logged σ α) (w : Workspace σ)
    (Q : α → Workspace σ → Prop) : Prop where
  account : Account Γ P w.document (m.log w) (documentAfter (m.step w))
  result : ∀ a w', m.step w = .ok a w' → Q a w'

theorem Keeps.mono (h : m.Keeps Γ P w Q) (hQ : ∀ a w', Q a w' → Q' a w') : m.Keeps Γ P w Q' :=
  ⟨h.account, fun a w' he => hQ a w' (h.result a w' he)⟩

theorem keeps_pure {a : α} (wf : w.document.WellFormed) (h : Q a w) :
    (pure a : Logged σ α).Keeps Γ P w Q where
  account := .nil (.refl wf)
  result _ _ he := by
    cases he
    exact h

theorem Keeps.bind (h : m.Keeps Γ P w Q) (hf : ∀ a w', w.document.Leaves w'.document P → Q a w' →
    (f a).Keeps Γ P w' R) : (m >>= f).Keeps Γ P w R := by
  obtain ⟨haccount, hresult⟩ := h
  cases hm : m.step w with
  | ok a w' =>
    have hstep : (m >>= f).step w = (f a).step w' := by
      show EStateM.bind m.step _ w = _
      simp only [EStateM.bind, hm]
    have hlog : (m >>= f).log w = m.log w ++ (f a).log w' := by
      show m.log w ++ _ = _
      rw [hm]
    rw [hm] at haccount
    have hrest := hf a w' haccount.leaves (hresult a w' hm)
    refine ⟨?_, fun b w'' he => hrest.result b w'' (hstep ▸ he)⟩
    rw [hlog, hstep]
    exact haccount.append hrest.account
  | error e w' =>
    have hstep : (m >>= f).step w = .error e w' := by
      show EStateM.bind m.step _ w = _
      simp only [EStateM.bind, hm]
    have hlog : (m >>= f).log w = m.log w ++ .nil := by
      show m.log w ++ _ = _
      rw [hm]
    rw [hm] at haccount
    refine ⟨?_, fun b w'' he => by rw [hstep] at he; cases he⟩
    rw [hlog, hstep, append_nil]
    exact haccount

theorem keeps_just {m : Step Error σ α} (hleaves : w.document.Leaves (documentAfter (m w)) P)
    (hresult : ∀ a w', m w = .ok a w' → Q a w') : (just m).Keeps Γ P w Q :=
  ⟨.nil hleaves, hresult⟩

theorem keeps_onlyIf {m : Logged σ Unit} {condition : Bool} (wf : w.document.WellFormed)
    (h : m.Keeps Γ P w fun _ _ => True) : (onlyIf condition m).Keeps Γ P w fun _ _ => True := by
  unfold onlyIf
  split
  · exact h
  · exact keeps_pure wf trivial

theorem Keeps.discard {Q : Workspace σ → Prop} (h : m.Keeps Γ P w fun _ => Q) :
    (discard m).Keeps Γ P w fun _ => Q :=
  h.bind fun _ _ hleaves hQ => keeps_pure hleaves.grows.wellFormed hQ

/-- What is done to the driver's state in the end changes no document. -/
theorem Keeps.thenLeave {leave : σ → σ}
    (h : m.Keeps Γ P w fun a w' => Q a { w' with state := leave w'.state }) :
    (m.thenLeave leave).Keeps Γ P w Q := by
  obtain ⟨haccount, hresult⟩ := h
  cases hm : m.step w with
  | ok a w' =>
    have hstep : (m.thenLeave leave).step w = .ok a { w' with state := leave w'.state } := by
      simp only [Logged.thenLeave, Block.thenLeave, hm]
    rw [hm] at haccount
    refine ⟨by rwa [hstep], fun b w'' he => ?_⟩
    rw [hstep] at he
    cases he
    exact hresult a w' hm
  | error e w' =>
    have hstep : (m.thenLeave leave).step w = .error e { w' with state := leave w'.state } := by
      simp only [Logged.thenLeave, Block.thenLeave, hm]
    rw [hm] at haccount
    refine ⟨by rwa [hstep], fun b w'' he => ?_⟩
    rw [hstep] at he
    cases he

theorem keeps_foldlM {f : α → γ → Logged σ α} (l : List γ) {a : α}
    (hstep : ∀ a c w', w.document.Leaves w'.document P → Q a w' → (f a c).Keeps Γ P w' Q)
    (wf : w.document.WellFormed) (h : Q a w) : (l.foldlM f a).Keeps Γ P w Q := by
  suffices key : ∀ (l : List γ) (a : α) (w' : Workspace σ), w.document.Leaves w'.document P →
      Q a w' → (l.foldlM f a).Keeps Γ P w' Q from key l a w (.refl wf) h
  intro l
  induction l with
  | nil => exact fun a w' hleaves h => keeps_pure hleaves.grows.wellFormed h
  | cons c l ih =>
    intro a w' hleaves h
    rw [List.foldlM_cons]
    exact (hstep a c w' hleaves h).bind fun b w'' hleaves' h' => ih b w'' (hleaves.trans hleaves') h'

end Logged

/-! ## Contents -/

/-- Whether `n` is in the content of one of the blocks. -/
def InContents (d : Document) (T : Forest Block.Template) (n : NodeId) : Prop :=
  ∃ t ∈ T.toList, ∃ c ∈ t.content, n ∈ ids (d.treeAt c)

/-- Whether the contents of blocks are at the top of the document. -/
def Detached (d : Document) (T : Forest Block.Template) : Prop :=
  ∀ t ∈ T.toList, ∀ c ∈ t.content, c ∈ d.ids ∧ d.parent? c = none

/-- What is known of an instance that is made while the blocks `T` of `d` are expanded. -/
structure Instance.Separate (d : Document) (T : Forest Block.Template) (x : Instance) : Prop where
  template_mem : x.template ∈ T.toList
  before : d.Leaves x.before (InContents d T)
  after : d.Leaves x.after (InContents d T)
  grows : x.before.Grows x.after
  top : ∀ n ∈ x.top, ∀ i ∈ ids (x.after.treeAt n), i ∈ x.nodes

section Contents

variable {d d' : Document} {T : Forest Block.Template} {x : Instance}

/-- Nothing connects the contents to the rest of the document. -/
theorem Detached.closed (h : Detached d T) (wf : d.WellFormed) : d.Closed (InContents d T) where
  mem_ids := by
    rintro n ⟨t, -, c, -, hn⟩
    exact wf.mem_ids_of_mem_treeAt hn
  iff_of_mem_children p n hmem := by
    have hparent := wf.parent?_eq_some_iff.mpr hmem
    constructor
    · rintro ⟨t, ht, c, hc, hp⟩
      exact ⟨t, ht, c, hc, wf.mem_of_parent?_mem hparent hp⟩
    · rintro ⟨t, ht, c, hc, hn⟩
      refine ⟨t, ht, c, hc, ?_⟩
      obtain ⟨hcmem, htop⟩ := h t ht c hc
      obtain ⟨node, cs, rfl, htree⟩ := wf.exists_treeAt hcmem
      rw [htree, ids_tree, List.mem_cons] at hn
      rcases hn with rfl | hn
      · rw [htop] at hparent
        cases hparent
      · obtain ⟨q, hq, hpq⟩ := wf.exists_parent htree hn
        obtain rfl : q = p := Option.some.inj (hpq.symm.trans hparent)
        exact hq

theorem InContents.of_mem {t : Block.Template} {c n : NodeId} (ht : t ∈ T.toList) (hc : c ∈ t.content)
    (hn : n ∈ ids (d.treeAt c)) : InContents d T n :=
  ⟨t, ht, c, hc, hn⟩

/-- What is copied for an instance is the content of the block. -/
theorem Instance.Separate.copied_eq (h : x.Separate d T) (wf : d.WellFormed) (hT : Detached d T) :
    x.copied = d.contentOf x.template := by
  have hmem := fun c hc => (hT x.template h.template_mem c hc).1
  obtain ⟨node, g, hid, -, hlabels, -, htree, -⟩ := Document.exists_fragment Word.fragment
    h.before.grows.wellFormed fun c hc => h.before.grows.mem_ids c (hmem c hc)
  have hcopied : x.copied = labels g := by
    rw [← hid] at htree
    exact congrArg (fun f => labels f.firstChildren) htree
  rw [hcopied, hlabels, Document.contentOf, Document.contentLabels, Document.contentLabels,
    Document.treesAt_congr fun c hc => wf.treeAt_congr h.before.grows.wellFormed (hmem c hc)
      fun n hn => ?_]
  have := h.before.unchanged n (.of_mem h.template_mem hc hn)
  exact ⟨this.label?_eq, this.children_eq⟩

end Contents

/-! ## Expansions -/

/-- Whether filling in the placeholders at and below a node changes nothing beyond it. At a text it may
put more texts beside it. -/
def Binding.Driver.StaysBelow (driver : Driver σ) : Prop :=
  ∀ (root : NodeId) (w : Workspace σ), w.document.WellFormed → root ∈ w.document.ids →
    w.document.isNamed root Word.text = false ∨ w.document.parent? root = none →
      w.document.Leaves (documentAfter (driver.substitute root w)) (w.document.Beyond root)

/-- A part of the document, with the contents of the blocks `T` of `d` in it, which are still as they
were in `d`. -/
structure Standing (d : Document) (T : Forest Block.Template) (P : NodeId → Prop) (d' : Document) :
    Prop where
  closed : d'.Closed P
  leaves : d.Leaves d' (InContents d T)
  contents : ∀ n, InContents d T n → P n

namespace Standing

variable {d d' d'' : Document} {T : Forest Block.Template} {P : NodeId → Prop}

theorem wellFormed (h : Standing d T P d') : d'.WellFormed :=
  h.leaves.grows.wellFormed

theorem of_leaves (h : Standing d T P d') (hl : d'.Leaves d'' P) : Standing d T P d'' where
  closed := h.closed.of_leaves h.wellFormed hl
  leaves := h.leaves.trans (hl.mono h.contents)
  contents := h.contents

/-- All nodes that are there. -/
theorem all (h : Standing d T P d') : Standing d T (· ∈ d'.ids) d' where
  closed := .all h.wellFormed
  leaves := h.leaves
  contents n hn := h.closed.mem_ids n (h.contents n hn)

end Standing

namespace Logged

variable {d : Document} {T TS : Forest Block.Template} {P : NodeId → Prop} {driver : Driver σ}
  {inner : Inner σ} {t : Block.Template} {verbatim strip : Bool} {select : Block.Selection}
  {w : Workspace σ} {scope cursor : NodeId}

/-- Whether dealing with the blocks below a block leaves alone what is apart from the scope. -/
def InnerKeeps (d : Document) (T : Forest Block.Template) (inner : Inner σ) : Prop :=
  ∀ P select scope verbatim w, Standing d T P w.document → scope ∈ w.document.ids → ¬ P scope →
    (inner select scope verbatim).Keeps (Instance.Separate d T) P w fun _ _ => True

theorem documentAfter_ask {m : Step Binding.Error σ α} :
    documentAfter (Block.ask m w) = documentAfter (m w) := by
  simp only [Block.ask, EStateM.adaptExcept]
  cases m w <;> rfl

theorem documentAfter_onState {ε : Type} {step : EStateM ε σ α} :
    documentAfter (Step.onState step w) = w.document := by
  simp only [Step.onState]
  cases step w.state <;> rfl

/-- Filling in placeholders. -/
theorem leaves_substitute (hdriver : driver.StaysBelow) (hP : w.document.Closed P)
    (wf : w.document.WellFormed) (hs : scope ∈ w.document.ids) (hnot : ¬ P scope)
    (htext : w.document.isNamed scope Word.text = false ∨ w.document.parent? scope = none) :
    w.document.Leaves (documentAfter (Block.ask (driver.substitute scope) w)) P := by
  rw [documentAfter_ask]
  exact (hdriver scope w wf hs htext).mono fun n hn =>
    ⟨hP.mem_ids n hn, fun hmem => hnot ((hP.iff_of_mem_treeAt wf hmem).mpr hn)⟩

/-- Nothing but the driver's state changes. -/
theorem keeps_state {m : EStateM Binding.Error σ α} (wf : w.document.WellFormed) :
    (just (Block.ask (Step.onState m))).Keeps (Instance.Separate d T) P w
      fun _ w' => w'.document = w.document := by
  have hdoc : documentAfter (Block.ask (Step.onState m) w) = w.document := by
    rw [documentAfter_ask, documentAfter_onState]
  refine keeps_just (by rw [hdoc]; exact .refl wf) fun a w' he => ?_
  rwa [he] at hdoc

/-- The trees of an instance: new ones, without parent. -/
def Parts (d d' : Document) (ns : List NodeId) : Prop :=
  ∃ f : Forest Node, ns = f.roots.map Node.id ∧ d'.Parted f ∧ ∀ i ∈ ids f, i ∉ d.ids

/-- A step that makes an instance leaves all nodes alone that are there in the beginning. -/
theorem Keeps.asInstance {m : Logged σ (List NodeId)}
    (hm : m.Keeps (Instance.Separate d T) (· ∈ w.document.ids) w
      fun ns w' => Parts w.document w'.document ns)
    (h : Standing d T P w.document) (ht : t ∈ T.toList) :
    (m.asInstance t).Keeps (Instance.Separate d T) P w
      fun ns w' => Parts w.document w'.document ns := by
  have hleaves := hm.account.leaves
  refine ⟨⟨hleaves.mono h.closed.mem_ids, ?_, fun x hx => ?_⟩, hm.result⟩
  · exact ⟨Nat.le_refl _, hm.account.chronological, Nat.le_refl _⟩
  · have hx : x ∈ _ :: ((m.log w).toList ++ []) := hx
    rw [List.append_nil, List.mem_cons] at hx
    rcases hx with rfl | hx
    · refine ⟨ht, h.leaves, h.leaves.trans (hleaves.mono h.all.contents), hleaves.grows, ?_⟩
      dsimp only
      cases hrun : m.step w with
      | error e w' => exact fun n hn => by cases hn
      | ok ns w' =>
        -- What is in the trees of the instance is in the document, and it was not before.
        intro n hn i hi
        obtain ⟨f, rfl, hf, hnew⟩ := hm.result ns w' hrun
        rw [hrun] at hleaves
        obtain ⟨a, ha, rfl⟩ := List.mem_map.mp hn
        obtain ⟨l, as, r, rfl⟩ := exists_of_mem_roots ha
        have hmem : i ∈ w'.document.ids := hleaves.grows.wellFormed.mem_ids_of_mem_treeAt hi
        have hi : i ∈ ids (w'.document.treeAt a.id) := hi
        rw [hf.treeAt_eq l a as r rfl] at hi
        exact List.mem_filter.mpr ⟨hmem, by simpa using hnew i (by simp at hi ⊢; tauto)⟩
    · exact hm.account.each x hx

/-- An instance is made of new nodes. -/
theorem keeps_instantiate (hdriver : driver.StaysBelow) (hinner : InnerKeeps d T inner)
    (hT : Detached d T) (ht : t ∈ T.toList) (h : Standing d T P w.document) :
    (instantiate driver inner t verbatim select).Keeps (Instance.Separate d T) P w
      fun ns w' => Parts w.document w'.document ns := by
  have wf := h.wellFormed
  have hcontent : ∀ c ∈ t.content, c ∈ w.document.ids := fun c hc =>
    h.leaves.grows.mem_ids c (hT t ht c hc).1
  have hnew : w.document.freshId ∉ w.document.ids := fun hmem => Nat.lt_irrefl _ (wf.lt_fresh _ hmem)
  refine Keeps.asInstance ?_ h ht
  refine Keeps.bind (Q := fun n w₁ => n = w.document.freshId ∧
    w₁.document = (w.document.createElement Word.fragment).2)
    (keeps_just (h.all.closed.leaves_create wf _) (by rintro n w₁ ⟨⟩; exact ⟨rfl, rfl⟩)) ?_
  rintro n w₁ hleaves₁ ⟨rfl, hd₁⟩
  have h₁ := h.all.of_leaves hleaves₁
  have hmem₁ : w.document.freshId ∈ w₁.document.ids := by
    rw [hd₁]
    exact (Document.makes_addCopies wf (.element ⟨Word.fragment, []⟩) .nil).mem_ids
  refine Keeps.bind (Q := fun _ w₂ => w₂.document = w₁.document.appendCopies w.document.freshId t.content)
    (keeps_just (h₁.closed.leaves_appendCopies h₁.wellFormed hmem₁ hnew fun c hc =>
      hleaves₁.grows.mem_ids c (hcontent c hc)) (by rintro n w₂ ⟨⟩; rfl)) ?_
  rintro - w₂ hleaves₂ hd₂
  have h₂ := h₁.of_leaves hleaves₂
  have hmem₂ := hleaves₂.grows.mem_ids _ hmem₁
  have htext : w₂.document.isNamed w.document.freshId Word.text = false := by
    obtain ⟨node, g, hid, hlabel, -, -, htree, -⟩ := Document.exists_fragment Word.fragment wf hcontent
    have hid : w.document.freshId = node.id := hid
    rw [← hid] at htree
    have hl : w₂.document.label? w.document.freshId = some node.label :=
      (h₂.wellFormed.label?_of_tree (by rw [hd₂, hd₁]; exact htree)).1
    rw [Document.isNamed, Document.name?, hl, hlabel]
    decide
  -- What is done in the fragment.
  refine Keeps.bind (Q := fun _ _ => True) (keeps_onlyIf h₂.wellFormed (keeps_just (leaves_substitute
    hdriver h₂.closed h₂.wellFormed hmem₂ hnew (.inl htext)) fun _ _ _ => trivial)) ?_
  rintro - w₃ hleaves₃ -
  have h₃ := h₂.of_leaves hleaves₃
  have hmem₃ := hleaves₃.grows.mem_ids _ hmem₂
  refine Keeps.bind (hinner _ select _ verbatim w₃ h₃ hmem₃ hnew) ?_
  rintro - w₄ hleaves₄ -
  have h₄ := h₃.of_leaves hleaves₄
  have hleaves₅ := h₄.wellFormed.leaves_takeChildren h₄.closed.mem_ids hnew
    (h₄.closed.not_mem_children hnew)
  obtain ⟨φ, f, hφ, htree⟩ := h₄.wellFormed.exists_treeAt (hleaves₄.grows.mem_ids _ hmem₃)
  obtain ⟨hns, hparted⟩ := Document.takeChildren_parted h₄.wellFormed htree
  refine keeps_just hleaves₅ fun ns w₅ he => ?_
  cases he
  exact ⟨f, hns, hparted, fun i hi hmem =>
    hnew ((h₄.closed.iff_of_mem_treeAt h₄.wellFormed (by rw [htree]; simp [hi])).mpr hmem)⟩

/-- Putting an instance behind a cursor. -/
theorem keeps_insertAllAfter {d₀ : Document} {ns : List NodeId} (h : Standing d T P w.document)
    (hP : ∀ n, P n → n ∈ d₀.ids) (hns : Parts d₀ w.document ns) (hd₀ : cursor ∈ d₀.ids)
    (hcursor : cursor ∈ w.document.ids) (hnot : ¬ P cursor) :
    (just (Step.changeGet (·.insertAllAfter cursor ns))).Keeps (Instance.Separate d T) P w
      fun n w' => n ∈ w'.document.ids ∧ ¬ P n := by
  obtain ⟨f, rfl, hparted, hnew⟩ := hns
  obtain ⟨hleaves, hmem, hlast⟩ := h.closed.leaves_insertAllAfter h.wellFormed hcursor hnot hparted
    (fun hi => hnew cursor hi hd₀) fun i hi hPi => hnew i hi (hP i hPi)
  refine keeps_just hleaves fun n w' he => ?_
  cases he
  exact ⟨hmem, hlast⟩

section Insert

variable (hdriver : driver.StaysBelow) (hinner : InnerKeeps d T inner) (hT : Detached d T)
  (ht : t ∈ T.toList) (h : Standing d T P w.document) (hcursor : cursor ∈ w.document.ids)
  (hnot : ¬ P cursor)
include hdriver hinner hT ht h hcursor hnot

theorem keeps_insertInstance :
    (insertInstance driver inner t verbatim select cursor).Keeps (Instance.Separate d T) P w
      fun n w' => n ∈ w'.document.ids ∧ ¬ P n :=
  (keeps_instantiate hdriver hinner hT ht h).bind fun _ _ hleaves hns =>
    keeps_insertAllAfter (h.of_leaves hleaves) h.closed.mem_ids hns hcursor
      (hleaves.grows.mem_ids _ hcursor) hnot

theorem keeps_insertItem (count index : Nat) :
    (insertItem driver inner t count cursor index).Keeps (Instance.Separate d T) P w
      fun n w' => n ∈ w'.document.ids ∧ ¬ P n := by
  refine (keeps_state h.wellFormed).bind fun _ w₁ hleaves₁ hd₁ => ?_
  refine Keeps.bind (Q := fun ns w₂ => Parts w₁.document w₂.document ns)
    (Keeps.thenLeave (keeps_instantiate hdriver hinner hT ht (h.of_leaves hleaves₁))) ?_
  intro ns w₂ hleaves₂ hns
  rw [hd₁] at hns hleaves₂
  exact keeps_insertAllAfter (h.of_leaves hleaves₂) h.closed.mem_ids hns hcursor
    (hleaves₂.grows.mem_ids _ hcursor) hnot

theorem keeps_insertPlanned (plan : Expansion) :
    (insertPlanned driver inner t cursor plan).Keeps (Instance.Separate d T) P w
      fun n w' => n ∈ w'.document.ids ∧ ¬ P n := by
  match plan with
  | .branch choice => exact keeps_insertInstance hdriver hinner hT ht h hcursor hnot
  | .repeated 0 => exact keeps_insertInstance hdriver hinner hT ht h hcursor hnot
  | .repeated (count + 1) =>
    exact keeps_foldlM _ (fun _ index w' hleaves hc =>
      keeps_insertItem hdriver hinner hT ht (h.of_leaves hleaves) hc.1 hc.2 (count + 1) index)
      h.wellFormed ⟨hcursor, hnot⟩

/-- What is put behind an anchor. -/
theorem keeps_expandBody :
    (expandBody driver inner t verbatim cursor).Keeps (Instance.Separate d T) P w
      fun _ _ => True := by
  unfold expandBody
  dsimp only
  split
  · refine keeps_just ?_ fun _ _ _ => trivial
    unfold Block.expandKeyword
    cases Block.keywordLabel? t.block.start.directive.expression with
    | none => exact .refl h.wellFormed
    | some label =>
      -- The break is a new node.
      have wf := h.wellFormed
      have hmakes := Document.makes_addCopies wf label .nil
      have hnew : ¬ P w.document.freshId := fun hP =>
        Nat.lt_irrefl _ (wf.lt_fresh _ (h.closed.mem_ids _ hP))
      have hadd := h.closed.leaves_create wf label
      have h₁ := h.of_leaves hadd
      exact hadd.trans (h₁.wellFormed.leaves_insertBeside h₁.closed.mem_ids
        (hmakes.receives wf hcursor) (fun _ _ => .inr rfl) hnew (h₁.closed.clear hnot))
  · split
    · refine (keeps_state h.wellFormed).bind fun plan w₁ hleaves hd₁ => ?_
      exact (Keeps.mono (keeps_insertPlanned hdriver hinner hT ht (h.of_leaves hleaves)
        (hleaves.grows.mem_ids _ hcursor) hnot plan) fun _ _ _ => trivial).discard
    · exact (Keeps.mono (keeps_insertInstance hdriver hinner hT ht h hcursor hnot)
        fun _ _ _ => trivial).discard

end Insert

/-- Expanding blocks leaves everything alone that is apart from the scope, the contents of the blocks
among it, and every instance is made of new nodes. -/
theorem keeps_expandAll (hdriver : driver.StaysBelow) (hT : Detached d T)
    (hTS : ∀ t ∈ TS.toList, t ∈ T.toList) (h : Standing d T P w.document)
    (hs : scope ∈ w.document.ids) (hnot : ¬ P scope) (i : Nat) :
    (expandAll strip driver TS i select scope verbatim).Keeps (Instance.Separate d T) P w
      fun _ _ => True := by
  induction TS generalizing P i select scope verbatim w with
  | nil => exact keeps_pure h.wellFormed trivial
  | cons t inner rest ihi ihr =>
    simp only [toList, List.mem_cons, List.mem_append] at hTS
    have hinner : InnerKeeps d T (expandAll strip driver inner 0) :=
      fun P select scope verbatim w h hs hnot =>
        ihi (fun u hu => hTS u (.inr (.inl hu))) h hs hnot 0
    unfold expandAll
    -- The anchor is in the scope.
    refine Keeps.bind (Q := fun anchor w₁ => w₁ = w ∧ anchor ∈ ids (w.document.treeAt scope))
      (keeps_just ?_ ?_) ?_
    · rw [resolveAnchor_eq]
      split <;> exact .refl h.wellFormed
    · intro anchor w₁ he
      rw [resolveAnchor_eq] at he
      split at he
      · next hresolve =>
        cases he
        obtain ⟨node, hnode, rfl⟩ := Option.map_eq_some_iff.mp hresolve
        exact ⟨rfl, List.mem_map_of_mem (List.mem_of_find?_eq_some hnode)⟩
      · cases he
    rintro anchor _ - ⟨rfl, hanchor⟩
    have hmem := h.wellFormed.mem_ids_of_mem_treeAt hanchor
    have hanchor : ¬ P anchor := fun hP =>
      hnot ((h.closed.iff_of_mem_treeAt h.wellFormed hanchor).mpr hP)
    refine Keeps.bind (Q := fun _ _ => True) (keeps_onlyIf h.wellFormed
      (keeps_expandBody hdriver hinner hT (hTS t (.inl rfl)) h hmem hanchor)) ?_
    rintro - w₁ hleaves₁ -
    have h₁ := h.of_leaves hleaves₁
    refine Keeps.bind (Q := fun _ _ => True)
      (keeps_just (h₁.closed.leaves_removeAnchor h₁.wellFormed hanchor strip) fun _ _ _ => trivial) ?_
    rintro - w₂ hleaves₂ -
    exact ihr (fun u hu => hTS u (.inr (.inr hu))) (h₁.of_leaves hleaves₂)
      (hleaves₂.grows.mem_ids _ (hleaves₁.grows.mem_ids _ hs)) hnot (i + 1)

end Logged

end WordTemplate
