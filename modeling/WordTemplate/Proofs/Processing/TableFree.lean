import WordTemplate.Proofs.Block.Validation
import WordTemplate.Proofs.Processing.Expanding

/-!
# Documents without tables

Outside of tables no block is placed around whole rows, and the bounds of a block are siblings that
enclose just what is between its directives. So blocks never lie across each other, and every anchor
is in place: `Processable.anchorsInPlace`.
-/

namespace WordTemplate

open Xml Forest

/-- Whether there are no tables and no rows. -/
def TableFree (f : Forest Label) : Prop :=
  ∀ l ∈ f.toList, l.isNamed Word.table = false ∧ l.isNamed Word.row = false

section TableFree

variable {settings : Settings} {root : NodeId} {d d₂ d₃ : Document} {B : Forest Block}
  {B' : Forest Block.Placed} {T : Forest Block.Template} {ls : List Landmark} {ts : List Token}

/-- Without tables all texts are in one region. -/
theorem Prepares.regional (h : Prepares settings d root ls ts) (hfree : TableFree (d.labelsAt root))
    (B : Forest Block) :
    Regional (fun _ => (⟨root, (d.label? root).bind Label.name?⟩, [])) B ls where
  start_eq_stop _ _ := rfl
  inRegion b _ x hx _ := by
    obtain ⟨inner, hpath⟩ := List.getLast?_eq_some_iff.mp (h.getLast?_eq x hx)
    refine ⟨inner, hpath, fun j hj => ?_⟩
    have hmem : j ∈ x.path := by
      rw [hpath, List.mem_append, List.mem_singleton]
      exact (List.mem_cons.mp hj).symm
    obtain ⟨l, hl, hname⟩ := h.name_eq x hx j hmem
    obtain ⟨htable, hrow⟩ := hfree l hl
    rw [Label.isNamed, ← hname, beq_eq_false_iff_ne] at htable hrow
    rw [Crumb.isPlain, Bool.and_eq_true, bne_iff_ne, bne_iff_ne]
    exact ⟨hrow, htable⟩

/-- Without tables the contents of the blocks show what an outline of the prepared document says. -/
theorem Prepares.exists_framed (hprep : Prepares settings d root ls ts) (h : Processable settings d root)
    (hfree : TableFree (d.labelsAt root)) (hB : Block.nest (prepare settings root d).1 = .ok B) :
    ∃ P B' d₂ T d₃ ss, Layout .level P B ls ∧ Spells none P ts ∧ Stages settings root d B B' d₂ T d₃ ∧
      Taken settings.mute d₃ root T ss ∧ Framed d₃.contentOf .level P T ss := by
  obtain ⟨P, hlayout, hspells⟩ := Block.nest_spec hprep.reads hB
  obtain ⟨B', ls₂, d₂, hplaced, hanchored, hls₂⟩ := placeAll_spec hlayout
    (hprep.regional hfree B) 0 (Settings.not_mem_mute (by decide)) hprep.charted.wellFormed
    hprep.charted.sound (show _ = [] ++ (ls ++ []) by simpa using hprep.charted.landmarks_eq)
  obtain ⟨T, ls₃, d₃, hextracted, hls₃⟩ := extractAll_spec (u := []) (w := []) hanchored
    hplaced.grows.wellFormed hplaced.sound (by simpa using hls₂)
  have hstages : Stages settings root d B B' d₂ T d₃ := ⟨hB, hplaced.run, hextracted.run⟩
  obtain ⟨ss, htaken⟩ := h.exists_taken hstages
  have hss : ls₃.map Landmark.sign = ss := by
    rw [← htaken.isScoped.map_sign_landmarks, hls₃]
    simp
  exact ⟨P, B', d₂, T, d₃, ss, hlayout, hspells, hstages, htaken, hss ▸ hextracted.framed⟩

/-- Without tables the contents of the blocks show what an outline of the document says. -/
theorem Processable.exists_framed (h : Processable settings d root)
    (hfree : TableFree (d.labelsAt root)) (hB : Block.nest (prepare settings root d).1 = .ok B) :
    ∃ ls ts P B' d₂ T d₃ ss, Prepares settings d root ls ts ∧ Layout .level P B ls ∧
      Spells none P ts ∧ Stages settings root d B B' d₂ T d₃ ∧ Taken settings.mute d₃ root T ss ∧
      Framed d₃.contentOf .level P T ss := by
  obtain ⟨label, hlabel, htext, -⟩ := h.exists_label
  obtain ⟨ls, ts, hprep⟩ := prepare_spec h.wellFormed hlabel htext h.pristine
  exact ⟨ls, ts, have ⟨P, B', d₂, T, d₃, ss, hframed⟩ := hprep.exists_framed h hfree hB
    ⟨P, B', d₂, T, d₃, ss, hprep, hframed⟩⟩

/-- Without tables every anchor is in place. -/
theorem Framed.anchorsInPlace {P : Forest Part} {ss : List Sign} {mute : List String}
    (h : Framed d.contentOf .level P T ss) (htaken : Taken mute d root T ss) :
    AnchorsInPlace d root T where
  roots_isSome t ht := by
    rw [isSome_resolve?_iff htaken.isScoped.sound, htaken.isScoped.signs_eq, h.anchorIds_eq]
    exact List.mem_map_of_mem ht
  validate_eq :=
    (h.anchoredOnce (fun t ht => (htaken.isStored t ht).2) htaken.nodup).validate_eq_ok

theorem Processable.anchorsInPlace (h : Processable settings d root)
    (hfree : TableFree (d.labelsAt root)) (hstages : Stages settings root d B B' d₂ T d₃) :
    AnchorsInPlace d₃ root T := by
  obtain ⟨_, _, P, B₁', d₂', T', d₃', ss, -, -, -, hstages', htaken, hframed⟩ :=
    h.exists_framed hfree hstages.nest_eq
  obtain ⟨rfl, rfl⟩ := hstages.unique hstages'
  exact hframed.anchorsInPlace htaken

end TableFree

end WordTemplate
