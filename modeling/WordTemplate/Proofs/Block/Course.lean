import WordTemplate.Proofs.Block.Expansion

/-!
# The course of an expansion

However blocks are expanded, it goes on in the same way: an instance is made and put behind a node, the next one
behind its end, or a keyword is replaced, and then the anchor is taken out. So what is to be shown of an expansion
as a whole has to be shown only of these changes.

* `Keeping`: what is to be shown, of two documents between which blocks were expanded.
* `Course`: what it takes.
* `Course.runs_expandAll`: expanding blocks.
-/

namespace WordTemplate

open Xml Forest Binding

variable {σ ι : Type}

/-- What an expansion is to keep. -/
structure Keeping where
  /-- Whether blocks can be expanded at and below a node. -/
  ready : NodeId → Forest Block.Template → Document → Prop
  /-- Whether something can be put behind a node. -/
  cursor : Document → NodeId → Prop
  /-- What is to hold if it succeeds. -/
  kept : Document → Document → Prop
  /-- What is to hold if it fails. -/
  failed : Document → Document → Prop

/-- Whether a step keeps what it has to keep. -/
abbrev RunsKeeping {α : Type} (K : Keeping) (m : Step Error σ α) (w : Workspace σ) : Prop :=
  Runs m w (fun _ w' => K.kept w.document w'.document) fun _ w' => K.failed w.document w'.document

/-- Whether a step behind a node keeps what it has to keep, and something can be put behind the node that it ends
at. -/
abbrev RunsCursor (K : Keeping) (m : Step Error σ NodeId) (w : Workspace σ) : Prop :=
  Runs m w (fun n w' => K.kept w.document w'.document ∧ K.cursor w'.document n)
    fun _ w' => K.failed w.document w'.document

/-- Whether expanding blocks keeps what it has to keep, wherever that can be done. -/
abbrev ExpandsKeeping (strip : Bool) (driver : Driver σ) (K : ι → Keeping) (T : Forest Block.Template) : Prop :=
  ∀ i select scope verbatim (w : Workspace σ), (K i).ready scope T w.document →
    RunsKeeping (K i) (Block.expandAll strip driver T 0 select scope verbatim) w

/-- Whether each of the changes of an expansion keeps what it has to keep. For the blocks within a block that may be
something else, since they are expanded in a fragment. -/
structure Course (strip : Bool) (driver : Driver σ) (K : ι → Keeping) : Prop where
  refl : ∀ {i scope T d}, (K i).ready scope T d → (K i).kept d d
  trans : ∀ {i d d' d''}, (K i).kept d d' → (K i).kept d' d'' → (K i).kept d d''
  failed : ∀ {i d d'}, (K i).kept d d' → (K i).failed d d'
  trans_failed : ∀ {i d d' d''}, (K i).kept d d' → (K i).failed d' d'' → (K i).failed d d''
  ready_cons : ∀ {i scope t T rest d}, (K i).ready scope (cons t T rest) d →
    (K i).ready scope (tree t T) d ∧ (K i).ready scope rest d
  ready_kept : ∀ {i scope T d d'}, (K i).ready scope T d → (K i).kept d d' → (K i).ready scope T d'
  cursor_kept : ∀ {i scope T d d' n}, (K i).ready scope T d → (K i).cursor d n → (K i).kept d d' →
    (K i).cursor d' n
  /-- The anchor of a block. -/
  anchor : ∀ {i scope T d n} {t : Block.Template}, (K i).ready scope T d →
    t.anchor.resolve? d scope = some n → (K i).cursor d n
  /-- An instance, put behind a node. -/
  insert : ∀ {i scope t T select verbatim n} {w : Workspace σ}, (K i).ready scope (tree t T) w.document →
    (K i).cursor w.document n → ExpandsKeeping strip driver K T →
    Runs (Block.instantiate driver (Block.expandAll strip driver T 0) t verbatim select) w
      (fun ns w' => (K i).kept w.document (w'.document.insertAllAfter n ns).2 ∧
        (K i).cursor (w'.document.insertAllAfter n ns).2 (w'.document.insertAllAfter n ns).1)
      fun _ w' => (K i).failed w.document w'.document
  /-- What a keyword stands for, put behind a node. -/
  keyword : ∀ {i scope T d n keyword label}, (K i).ready scope T d → (K i).cursor d n →
    Block.keywordLabel? keyword = some label → (K i).kept d ((d.create label).2.insertAfter n d.freshId)
  removeAnchor : ∀ {i scope T d n}, (K i).ready scope T d → (K i).cursor d n →
    (K i).kept d (Block.removeAnchor strip n d)

namespace Course

variable {strip verbatim : Bool} {driver : Driver σ} {K : ι → Keeping} {i : ι} {t : Block.Template}
  {T : Forest Block.Template} {select : Block.Selection} {scope n : NodeId} {d : Document} {w : Workspace σ}

section Instances

variable (hK : Course strip driver K) (h : (K i).ready scope (tree t T) w.document)
  (hn : (K i).cursor w.document n) (hinner : ExpandsKeeping strip driver K T)
include hK h hn hinner

theorem runs_insertInstance : RunsCursor (K i)
    (Block.insertInstance driver (Block.expandAll strip driver T 0) t verbatim select n) w :=
  (hK.insert h hn hinner).bind fun _ _ h' => runs_changeGet h'

theorem runs_insertItem (count index : Nat) : RunsCursor (K i)
    (Block.insertItem driver (Block.expandAll strip driver T 0) t count n index) w := by
  unfold Block.insertItem
  refine Runs.bind (Q := fun _ w₁ => w₁.document = w.document)
    (Runs.ask (runs_onState (fun _ _ _ => rfl) fun _ _ _ => hK.failed (hK.refl h))) ?_
  rintro - w₁ hd₁
  rw [← hd₁] at h hn ⊢
  exact (Runs.thenLeave (hK.insert h hn hinner)).bind fun _ _ h' => runs_changeGet h'

/-- The instances that a plan asks for, each behind the end of the one before. -/
theorem runs_insertPlanned (plan : Expansion) : RunsCursor (K i)
    (Block.insertPlanned driver (Block.expandAll strip driver T 0) t n plan) w := by
  unfold Block.insertPlanned
  split
  · exact hK.runs_insertInstance h hn hinner
  · exact hK.runs_insertInstance h hn hinner
  · next count _ =>
    refine runs_foldlM (fun _ m w' => (K i).kept w.document w'.document ∧ (K i).cursor w'.document m)
      (List.range count) ⟨hK.refl h, hn⟩ ?_
    rintro u k v m w' - ⟨h', hm⟩
    exact (hK.runs_insertItem (hK.ready_kept h h') hm hinner count k).mono
      (fun _ _ h'' => ⟨hK.trans h' h''.1, h''.2⟩) fun _ _ h'' => hK.trans_failed h' h''

end Instances

theorem runs_expandKeyword (hK : Course strip driver K) (h : (K i).ready scope T w.document)
    (hn : (K i).cursor w.document n) (keyword : String) :
    RunsKeeping (K i) (Block.expandKeyword keyword n) w := by
  unfold Block.expandKeyword
  split
  · exact runs_throw (hK.failed (hK.refl h))
  · next label hlabel =>
    refine Runs.bind (Q := fun m w₁ => m = w.document.freshId ∧
      w₁.document = (w.document.create label).2) (runs_changeGet ⟨rfl, rfl⟩) ?_
    rintro m w₁ ⟨rfl, hd₁⟩
    refine runs_change ?_
    rw [hd₁]
    exact hK.keyword h hn hlabel

/-- What is put behind an anchor. -/
theorem runs_expandBody (hK : Course strip driver K) (h : (K i).ready scope (tree t T) w.document)
    (hn : (K i).cursor w.document n) (hinner : ExpandsKeeping strip driver K T) :
    RunsKeeping (K i) (expandBody driver (Block.expandAll strip driver T 0) t verbatim n) w := by
  unfold expandBody
  split
  · exact hK.runs_expandKeyword h hn _
  · split
    · refine Runs.bind (Q := fun _ w₁ => w₁.document = w.document)
        (Runs.ask (runs_onState (fun _ _ _ => rfl) fun _ _ _ => hK.failed (hK.refl h))) ?_
      rintro plan w₁ hd₁
      rw [← hd₁] at h hn ⊢
      exact ((hK.runs_insertPlanned h hn hinner plan).mono (fun _ _ h' => h'.1) fun _ _ h' => h').discard
    · exact ((hK.runs_insertInstance h hn hinner).mono (fun _ _ h' => h'.1) fun _ _ h' => h').discard

/-- Something can be put behind an anchor that is found. -/
theorem runs_resolveAnchor (hK : Course strip driver K) (h : (K i).ready scope T w.document)
    (t : Block.Template) :
    Runs (Block.resolveAnchor t scope) w (fun n w' => w' = w ∧ (K i).cursor w.document n)
      fun _ w' => (K i).failed w.document w'.document := by
  rw [Runs, resolveAnchor_eq]
  cases hresolve : t.anchor.resolve? w.document scope with
  | none => exact hK.failed (hK.refl h)
  | some n => exact ⟨rfl, hK.anchor h hresolve⟩

/-- Expanding blocks, or removing their anchors. -/
theorem runs_expandAll (hK : Course strip driver K) (h : (K i).ready scope T w.document) (k : Nat) :
    RunsKeeping (K i) (Block.expandAll strip driver T k select scope verbatim) w := by
  induction T generalizing i w k select scope verbatim with
  | nil => exact hK.refl h
  | cons t T rest ihT ihrest =>
    obtain ⟨hone, hrest⟩ := hK.ready_cons h
    have hafter : ∀ w₁ : Workspace σ, (K i).kept w.document w₁.document →
        Runs (Block.expandAll strip driver rest (k + 1) select scope verbatim) w₁
          (fun _ w₂ => (K i).kept w.document w₂.document) fun _ w₂ => (K i).failed w.document w₂.document :=
      fun w₁ h₁ => (ihrest (hK.ready_kept hrest h₁) (k + 1)).mono (fun _ _ h₂ => hK.trans h₁ h₂)
        fun _ _ h₂ => hK.trans_failed h₁ h₂
    unfold Block.expandAll
    split
    · refine Runs.bind (Q := fun _ w₁ => (K i).kept w.document w₁.document) ?_ fun _ => hafter
      rw [← expandOneVia_resolveAnchor]
      refine (hK.runs_resolveAnchor hone t).bind ?_
      rintro n w₁ ⟨rfl, hn⟩
      refine (hK.runs_expandBody hone hn fun _ _ _ _ _ h => ihT h 0).bind fun _ w₂ h₂ => ?_
      exact runs_change (hK.trans h₂ (hK.removeAnchor (hK.ready_kept hone h₂) (hK.cursor_kept hone hn h₂)))
    · refine (hK.runs_resolveAnchor hone t).bind ?_
      rintro n w₁ ⟨rfl, hn⟩
      exact Runs.bind (Q := fun _ w₂ => (K i).kept w₁.document w₂.document)
        (runs_change (hK.removeAnchor hone hn)) fun _ => hafter

end Course

end WordTemplate
