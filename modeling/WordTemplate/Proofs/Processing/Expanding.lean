import WordTemplate.Proofs.Block.Agreement
import WordTemplate.Proofs.Processing.Reading

/-!
# Expanding the blocks of a document

After the blocks of a document have been read, the placeholders outside of them are filled in, and
the blocks are expanded. If every anchor is in place, all lookups of the expansion find their anchor,
and no anchor is left in the end.

* `runs_expandVia`: the rule for this part of processing.
* `Taken.runs_covers`: the run if every anchor is in place.
-/

namespace WordTemplate

open Xml Forest Binding

variable {σ : Type} {settings : Settings} {driver : Driver σ} {root : NodeId} {d d₂ d₃ : Document}
  {B : Forest Block} {B' : Forest Block.Placed} {T : Forest Block.Template} {mute : List String}
  {ss : List Sign}

/-- What comes after the blocks have been read. -/
def expandVia (resolve : Resolver σ) (settings : Settings) (driver : Driver σ) (root : NodeId)
    (T : Forest Block.Template) : Step Error σ Unit := do
  Block.ask (driver.substitute root)
  expandAllVia resolve settings.stripEmptyParagraphs driver T 0 .all root false

/-- If the blocks can be read, processing goes on with their expansion. -/
theorem expandBlocks_of_readBlocks {w w' : Workspace σ} (h : readBlocks settings root w = .ok T w') :
    expandBlocks settings driver root w = expandVia Block.resolveAnchor settings driver root T w' := by
  rw [expandVia, expandAllVia_resolveAnchor, expandBlocks]
  show EStateM.bind (readBlocks settings root) _ w = _
  simp only [EStateM.bind, h]

/-- If the blocks cannot be read, processing fails. -/
theorem expandBlocks_of_readBlocks_error {w w' : Workspace σ} {e : Error}
    (h : readBlocks settings root w = .error e w') :
    expandBlocks settings driver root w = .error e w' := by
  show EStateM.bind (readBlocks settings root) _ w = _
  simp only [EStateM.bind, h]

/-- A successful run went through all stages before the expansion. -/
theorem exists_stages_of_expandBlocks {w w' : Workspace σ}
    (h : expandBlocks settings driver root w = .ok () w') :
    ∃ B B' d₂ T d₃, Stages settings root w.document B B' d₂ T d₃ ∧
      (settings.validate = true → Block.validate d₃ T = .ok ()) ∧
      expandVia Block.resolveAnchor settings driver root T ⟨d₃, w.state⟩ = .ok () w' := by
  cases hread : readBlocks settings root w with
  | error e w₁ =>
    rw [expandBlocks_of_readBlocks_error hread] at h
    cases h
  | ok T w₁ =>
    obtain ⟨B, B', d₂, d₃, hstages, rfl, hvalid⟩ := exists_stages hread
    rw [expandBlocks_of_readBlocks hread] at h
    exact ⟨B, B', d₂, T, d₃, hstages, hvalid, h⟩

section Runs

variable {resolve : Resolver σ} {I J : List String → List Sign → Prop} {F : Error → Prop}

/-- The rule for the part of processing after the blocks have been read. -/
theorem runs_expandVia (h : Taken mute d₃ root T ss)
    (hkept : Kept settings.stripEmptyParagraphs I) (hfinds : resolve.Finds mute I F)
    (hsubst : Substitutes driver mute J I) (hexpected : ∀ e, IsExpected e → F e)
    (hfragment : Word.fragment ∉ mute) (hJ : J (rootIds T) ss)
    (hfit : Fit mute I J d₃.contentOf false T) (s : σ) :
    Runs (expandVia resolve settings driver root T) ⟨d₃, s⟩
      (fun _ w' => ∃ ss', Scoped w'.document root mute ss' ∧ I [] ss') fun e _ => F e := by
  have hT : Holds d₃ root d₃.contentOf T := fun t ht => ⟨(h.isStored t ht).1, rfl⟩
  have wf := h.isScoped.wellFormed
  refine Runs.bind (E := fun e _ => F e) (Q := fun _ w₁ => d₃.Within w₁.document root ∧
    ∃ ss₁, Scoped w₁.document root mute ss₁ ∧ I (rootIds T) ss₁) ?_ ?_
  · exact ((hsubst (w := ⟨d₃, s⟩) h.isScoped hJ).mono (fun _ _ h => h)
      fun e _ _ => hexpected _ (.inr ⟨e, rfl⟩)).ask
  · rintro - w₁ ⟨hw, ss₁, hS₁, hI₁⟩
    exact (runs_expandAll hkept hfinds hsubst hexpected hfragment hS₁ hI₁ (hT.within hw wf) hfit).mono
      (fun _ _ h => h.2) fun _ _ he => he

/-- Whether every anchor is where the expansion looks for it: those of the blocks at the top are in
the scope, and the others are in the contents of the blocks above. -/
structure AnchorsInPlace (d : Document) (root : NodeId) (T : Forest Block.Template) : Prop where
  roots_isSome : ∀ t ∈ T.roots, (t.anchor.resolve? d root).isSome = true
  validate_eq : Block.validate d T = .ok ()

/-- If every anchor is in place, the scope and the contents show just the anchors of the blocks at the
top and of those below. -/
theorem Taken.covers (h : Taken mute d₃ root T ss) (hplace : AnchorsInPlace d₃ root T) :
    Covers (rootIds T) ss ∧ Fit mute Covers Covers d₃.contentOf false T := by
  have hs : ∀ t ∈ T.toList, Sound mute (d₃.contentOf t) := fun t ht => (h.isStored t ht).2
  refine covers_of_nested (nested_of_validate_eq_ok hs hplace.validate_eq) ?_ h.nodup hs
    h.anchors_perm false
  intro id hid
  obtain ⟨t, ht, rfl⟩ := List.mem_map.mp hid
  rw [← h.isScoped.signs_eq]
  exact (isSome_resolve?_iff h.isScoped.sound).mp (hplace.roots_isSome t ht)

/-- If every anchor is in place, all lookups find a single anchor, and none is left. -/
theorem Taken.runs_covers (h : Taken settings.mute d₃ root T ss) (hplace : AnchorsInPlace d₃ root T)
    (hdriver : driver.RewritesPlaceholders) (s : σ) :
    Runs (expandVia resolveOnly settings driver root T) ⟨d₃, s⟩
      (fun _ w' => ∃ ss', Scoped w'.document root settings.mute ss' ∧ anchorIds ss' = [])
      fun e _ => IsExpected e := by
  obtain ⟨hcovers, hfit⟩ := h.covers hplace
  refine (runs_expandVia h (kept_covers _) (finds_resolveOnly IsExpected)
    (substitutes_covers hdriver (Settings.not_mem_mute (by decide))) (fun _ he => he)
    (Settings.not_mem_mute (by decide)) hcovers hfit s).mono ?_ fun _ _ he => he
  rintro - w' ⟨ss', hS', hI⟩
  exact ⟨ss', hS', covers_nil.mp hI⟩

/-- Accepting any anchor makes no difference then. -/
theorem Taken.expandVia_eq (h : Taken settings.mute d₃ root T ss) (hplace : AnchorsInPlace d₃ root T)
    (hdriver : driver.RewritesPlaceholders) (s : σ) :
    expandVia resolveOnly settings driver root T ⟨d₃, s⟩ =
      expandVia Block.resolveAnchor settings driver root T ⟨d₃, s⟩ := by
  have hruns := h.runs_covers hplace hdriver s
  have hagrees : Agrees (expandVia resolveOnly settings driver root T)
      (expandVia Block.resolveAnchor settings driver root T) := by
    refine agrees_iff.mpr ((AgreesUnless.refl _).bind fun _ => agrees_iff.mp ?_)
    rw [expandAllVia_resolveAnchor]
    exact expandAll_agrees T 0 .all
  rcases hagrees ⟨d₃, s⟩ with he | ⟨id, w', he⟩
  · exact he
  · rw [Runs, he] at hruns
    rcases hruns with ⟨_, h⟩ | ⟨_, h⟩ <;> cases h

/-- If every anchor is in place, the blocks are expanded, and no anchor is left. -/
theorem Taken.runs_expandBlocks (h : Taken settings.mute d₃ root T ss)
    (hplace : AnchorsInPlace d₃ root T) (hdriver : driver.RewritesPlaceholders) {s : σ}
    (hread : readBlocks settings root ⟨d, s⟩ = .ok T ⟨d₃, s⟩) :
    Runs (expandBlocks settings driver root) ⟨d, s⟩
      (fun _ w' => ∃ ss', Scoped w'.document root settings.mute ss' ∧ anchorIds ss' = [])
      fun e _ => IsExpected e := by
  rw [Runs, expandBlocks_of_readBlocks hread, ← h.expandVia_eq hplace hdriver s]
  exact h.runs_covers hplace hdriver s

end Runs

end WordTemplate
