import WordTemplate.Proofs.Word.Texts

/-!
# Directives after the preparation

After the preparation the text element of every directive carries the mark of the directive, wherever
it stands. It takes only that no text is in another one. The characters that are still to be read stay
in text elements that are not marked yet, so no mark is overwritten.

* `isolate_tracks`: isolating one directive.
* `isolateAll_tracks`: the nodes of all markers are directives.
* `prepare_tracks`: the whole preparation.
-/

namespace WordTemplate

open Xml Forest FlatText

/-! ## Isolating directives -/

section Isolate

variable {W : Watch} {d d' : Document} {ns : List NodeId} {flat flat' : FlatText} {n : NodeId}
  {start stop pos : Nat} {kind : Directive.Kind}

/-- The directives among the nodes of markers are observed as well. -/
def Watch.with (W : Watch) (ms : List Marker) : Watch :=
  { W with directive := fun i => W.directive i ∨ ∃ m ∈ ms, m.node = i ∧ m.directive.kind ≠ .placeholder }

end Isolate

/-! ## Texts of a document -/

section Texts

variable {d d' : Document} {root n : NodeId} {ns : List NodeId}

theorem textsOutside_append {closed : Label → Bool} {f g : Forest Label} :
    TextsOutside closed (f ++ g) ↔ TextsOutside closed f ∧ TextsOutside closed g := by
  induction f with
  | nil => simp [TextsOutside]
  | cons l cs rest _ ih => rw [cons_append, TextsOutside, TextsOutside, ih, and_assoc, and_assoc]

theorem TextsOutside.of_wrap {closed : Label → Bool} {up : List (Frame Node)} {f : Forest Node}
    (h : TextsOutside closed (labels (wrap up f))) : TextsOutside closed (labels f) := by
  induction up generalizing f with
  | nil => exact h
  | cons fr up ih =>
    have := ih h
    rw [labels_append, labels_cons] at this
    exact (textsOutside_append.mp this).2.2.1

/-- Texts that are apart stay so if no node is made. -/
theorem Xml.Document.Separate.of_gains (h : d.Separate ns) (wf : d.WellFormed) (hg : d.Gains d')
    (hfresh : d'.fresh = d.fresh) : d'.Separate ns where
  named n hn := by
    rw [hg.isNamed_eq (h.mem_ids wf hn)]
    exact h.named n hn
  apart n hn m hm hne := by
    have hold : ∀ k ∈ ns, ∀ i ∈ Xml.ids (d'.treeAt k), i ∈ Xml.ids (d.treeAt k) := by
      intro k hk i hi
      have hlt := hg.grows.wellFormed.lt_fresh_of_treeAt hi
      exact (hg.mem_or_fresh k (h.mem_ids wf hk) i hi).resolve_right (by omega)
    exact ⟨hg.grows.mem_ids m (h.mem_ids wf hm), fun i him hin =>
      (h.apart n hn m hm hne).disjoint i (hold m hm i him) (hold n hn i hin)⟩

/-- The characters of a document are in its texts. -/
theorem legible_ofDocument (wf : d.WellFormed) :
    Legible d (d.textElements root) (FlatText.ofDocument d root).entries := by
  have hmem : ∀ e ∈ (FlatText.ofDocument d root).entries, e.node ∈ d.textElements root ∧
      e.offset < (d.innerText e.node).toList.length := by
    intro e he
    obtain ⟨n, hn, he⟩ := List.mem_flatMap.mp he
    obtain ⟨i, hi, rfl⟩ := List.mem_mapIdx.mp he
    exact ⟨hn, hi⟩
  have hnodup : (d.textElements root).Nodup :=
    (wf.nodup_treeAt root).sublist (List.filter_sublist.map _)
  refine ⟨fun e he => (hmem e he).1, fun e he => (hmem e he).2, ?_⟩
  show ((d.textElements root).flatMap _).Pairwise _
  rw [List.pairwise_flatMap]
  refine ⟨fun n _ => ?_, hnodup.imp ?_⟩
  · rw [FlatText.entriesOf, List.pairwise_iff_getElem]
    intro i j hi hj hlt _
    simpa using hlt
  · rintro n m hne e he e' he' hee
    obtain ⟨_, _, rfl⟩ := List.mem_mapIdx.mp he
    obtain ⟨_, _, rfl⟩ := List.mem_mapIdx.mp he'
    exact absurd hee hne

end Texts

/-! ## Markup and line breaks -/

namespace Drops

variable {W : Watch} {d : Document}

theorem removeMarkup (wf : d.WellFormed) (h : Each (Traced W) d.trees) (root : NodeId) :
    Drops W d (d.removeMarkup root) := by
  refine foldl (fun d n wf h => ?_) wf h _
  rw [Document.removeMarkupAt]
  split
  · exact detach wf h n
  · split
    · exact detachFromRun wf h n
    · exact refl wf h

theorem trimLineBreaks (wf : d.WellFormed) (h : Each (Traced W) d.trees) (n : NodeId) :
    Drops W d (d.trimLineBreaks n) := by
  rw [Document.trimLineBreaks]
  split
  · exact refl wf h
  · dsimp only
    split
    · exact refl wf h
    · exact foldl (fun _ n wf h => detachFromRun wf h n) wf h _

end Drops

/-! ## Preparing a document -/

section Prepare

variable {d : Document} {root : NodeId}

/-- Whether all paragraphs and rows have an attribute, one that processing does not use itself. -/
def Xml.Document.Tagged (d : Document) (key : String) : Prop :=
  key ≠ Word.markAttribute ∧ key ≠ Word.insertionAttribute ∧
    ∀ node ∈ d.trees.toList, node.label.isParagraphOrRow = true → node.label.attribute? key ≠ none

/-- Nothing is observed but the attributes of all paragraphs and rows. -/
def Watch.start (d : Document) : Watch where
  directive _ := False
  pending _ := False
  keys := d.Tagged

theorem TraceFree.each (h : TraceFree d.trees.toList) : Each (Traced (Watch.start d)) d.trees := by
  refine (each_of_forall (f := d.trees) fun _ => id).mono fun node kids ⟨hnode, hkids⟩ => ?_
  refine ⟨.of_none (h.mark_eq node hnode) (h.insertion_eq node hnode),
    fun kid hkid => h.not_fragment kid (hkids kid hkid), False.elim, ?_⟩
  rintro hp ⟨key, ⟨-, -, hkey⟩, hnone⟩
  exact absurd hnone (hkey node hnode hp)

end Prepare

end WordTemplate
