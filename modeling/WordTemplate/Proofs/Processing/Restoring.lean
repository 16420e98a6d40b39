import WordTemplate.Proofs.Block.Reinsertion
import WordTemplate.Proofs.Processing.Building

/-!
# Taking contents out and putting them back

If every anchor is in place, the contents that were taken out can be put back, from the outer blocks to the
inner ones, and the document is what it was when the blocks had been placed. So nothing is lost when
contents are taken out.

* `Stages.reinsertAll_eq`: contents are put back where they were.
* `reinsertAll_of_tableFree`: without tables they always can be.
-/

namespace WordTemplate

open Xml Forest

section Restoring

variable {settings : Settings} {root : NodeId} {d d₂ d₃ : Document} {B : Forest Block}
  {B' : Forest Block.Placed} {T : Forest Block.Template} {ls : List Landmark} {mute : List String}

/-! ## Anchors -/

/-- The insertion point of a placed block is on its first node and on no other. -/
theorem Block.PlacesAny.isOn_iff {F : Forest (Nat × Block)} (h : Block.PlacesAny mute d d₂ root F B')
    (hC : Charted d root mute ls) (hls : ∀ x ∈ ls, x.sign.isAnchor = false)
    (hnd : (B'.toList.map (·.number)).Nodup) {p : Block.Placed} (hp : p ∈ B'.toList) {node : Node}
    (hnode : node ∈ (d₂.treeAt root).toList) :
    (Block.startPoint p.block.kind p.number).isOn node.label = true ↔ node.id = p.first := by
  have hkeys : ∀ n id, (n, Sign.anchor id) ∈ keysOf (landmarks (d₂.treeAt root)) ↔
      (n, Sign.anchor id) ∈ B'.toList.map Block.Placed.key := by
    intro n id
    rw [h.keys_perm.mem_iff, List.mem_append, or_iff_left]
    intro hmem
    rw [hC.landmarks_eq, keysOf] at hmem
    obtain ⟨x, hx, he⟩ := List.mem_map.mp hmem
    have := hls x hx
    rw [(Prod.mk.inj he).2] at this
    cases this
  rw [WordTemplate.isOn_iff]
  constructor
  · intro hid
    have hmem := (mem_keysOf_iff h.retains.sound).mpr ⟨node, hnode, rfl, hid⟩
    rw [hkeys] at hmem
    obtain ⟨q, hq, he⟩ := List.mem_map.mp hmem
    obtain ⟨hfirst, hsign⟩ := Prod.mk.inj he
    have hnumber := id_startPoint_inj (Sign.anchor.inj hsign)
    rw [← hfirst, List.inj_on_of_nodup_map hnd hq hp hnumber]
  · intro hid
    have hmem := (hkeys p.first _).mpr (List.mem_map_of_mem (f := Block.Placed.key) hp)
    obtain ⟨node', hnode', hid', hanchor⟩ := (mem_keysOf_iff h.retains.sound).mp hmem
    have hndt := (h.retains.charted hC).wellFormed.nodup_treeAt root
    rw [List.inj_on_of_nodup_map hndt hnode hnode' (hid.trans hid'.symm)]
    exact hanchor

/-- No two blocks begin at the same node. -/
theorem Block.PlacesAny.nodup_first {F : Forest (Nat × Block)} (h : Block.PlacesAny mute d d₂ root F B')
    (hC : Charted d root mute ls) : (B'.toList.map Block.Placed.first).Nodup := by
  have hnd := (h.retains.charted hC).nodup
  have hkeys := (h.keys_perm.map Prod.fst).symm
  rw [List.map_append, List.map_map] at hkeys
  have hnodes : (keysOf (landmarks (d₂.treeAt root))).map Prod.fst =
      (landmarks (d₂.treeAt root)).map Landmark.node := by
    rw [keysOf, List.map_map]
    rfl
  rw [hnodes] at hkeys
  exact (List.nodup_append.mp (hkeys.nodup_iff.mpr hnd)).1

/-- What the validation checks, said of the nodes that the anchors are. -/
theorem housed_of_validate {K : Forest Block.Cut} {ns : List NodeId}
    (hfind : ∀ c ∈ K.toList, ∀ n ∈ ns ++ K.toList.flatMap Block.Cut.content,
      (c.template.anchor.resolve? d n).isSome → c.anchor ∈ Xml.ids (d.treeAt n))
    (hroots : ∀ c ∈ K.roots, ∃ n ∈ ns, (c.template.anchor.resolve? d n).isSome)
    (hvalid : Block.validate d (K.map Block.Cut.template) = .ok ()) : Block.Housed d ns K := by
  induction K generalizing ns with
  | nil => trivial
  | cons c inner rest ihi ihr =>
    obtain ⟨hchecks, hI, hR⟩ := of_validate_cons hvalid
    simp only [toList, List.flatMap_cons, List.flatMap_append, List.mem_cons, List.mem_append] at hfind
    rw [roots, List.forall_mem_cons] at hroots
    refine ⟨?_, ihi (fun x hx n hn => ?_) (fun x hx => ?_) hI, ihr (fun x hx n hn => ?_) hroots.2 hR⟩
    · obtain ⟨n, hn, hsome⟩ := hroots.1
      exact ⟨n, hn, hfind c (.inl rfl) n (.inl hn) hsome⟩
    · exact hfind x (.inr (.inl hx)) n (.inr (by rw [List.mem_append] at hn; tauto))
    · have hmem : x.template ∈ (inner.map Block.Cut.template).roots := by
        rw [roots_map]
        exact List.mem_map_of_mem hx
      exact checkAnchor_eq_ok_iff.mp (hchecks x.template hmem)
    · exact hfind x (.inr (.inr hx)) n (by rw [List.mem_append] at hn; tauto)

/-! ## Putting contents back -/

/-- If every anchor is in place, the contents are put back where they were. -/
theorem Stages.reinsertAll_eq (hstages : Stages settings root d B B' d₂ T d₃)
    (h : Processable settings d root) (hplace : AnchorsInPlace d₃ root T) :
    Block.reinsertAll root T d₃ = some d₂ := by
  obtain ⟨ls, B₁', d₂', T', d₃', hstages', hC, hls, hplaced, hex⟩ := h.exists_extracted hstages.nest_eq
  obtain ⟨rfl, rfl⟩ := EStateM.Result.ok.inj (hstages.placeAll_eq.symm.trans hstages'.placeAll_eq)
  obtain ⟨rfl, rfl⟩ := hstages.unique hstages'
  have hC₂ := hplaced.retains.charted hC
  have hparts := hex.parts
  have hrun := hstages.extractAll_eq
  obtain ⟨K, hK⟩ : ∃ K, Block.cuts B' d₂ = K := ⟨_, rfl⟩
  have hT : K.map Block.Cut.template = T := by rw [← hK, Block.map_template_cuts, hrun]
  rw [List.append_nil, ← hT, Block.contentsOf_map_template] at hparts
  have hdis := Block.DisjointTrees.of_parts hparts
  -- The blocks, and the nodes at which they were placed.
  have hcuts : ∀ c ∈ K.toList, ∃ p ∈ B'.toList, c.anchor = p.first ∧
      c.template.anchor = Block.startPoint p.block.kind p.number := by
    intro c hc
    have hmem := List.mem_map_of_mem (f := fun c : Block.Cut =>
      (c.anchor, c.template.number, c.template.block)) hc
    rw [← toList_map, ← hK, Block.map_placed_cuts, toList_map] at hmem
    obtain ⟨p, hp, he⟩ := List.mem_map.mp hmem
    simp only [Prod.mk.injEq] at he
    obtain ⟨hfirst, hnumber, hblock⟩ := he
    refine ⟨p, hp, hfirst.symm, ?_⟩
    rw [Block.Template.anchor, Block.Template.kind, ← hnumber, ← hblock]
  have hanchors : (K.toList.map Block.Cut.anchor).Nodup := by
    have := congrArg (List.map Prod.fst) (congrArg Forest.toList (Block.map_placed_cuts B' d₂))
    rw [hK, toList_map, toList_map, List.map_map, List.map_map] at this
    exact (this : K.toList.map Block.Cut.anchor = _) ▸ hplaced.nodup_first hC
  have hon : ∀ c ∈ K.toList, ∀ node ∈ nodesAt d₃ (root :: K.toList.flatMap Block.Cut.content),
      c.template.anchor.isOn node.label = true ↔ node.id = c.anchor := by
    intro c hc node hnode
    obtain ⟨p, hp, hfirst, hanchor⟩ := hcuts c hc
    rw [hfirst, hanchor]
    exact hplaced.isOn_iff hC (fun x hx => (hls x hx).1) hplaced.nodup_numbers hp
      (hparts.perm.mem_iff.mp hnode)
  have hhoused : Block.Housed d₃ [root] K := by
    refine housed_of_validate (fun c hc n hn hsome => ?_) (fun c hc => ?_)
      (hT ▸ hplace.validate_eq)
    · rw [InsertionPoint.resolve?, Option.isSome_map, List.find?_isSome] at hsome
      obtain ⟨node, hnode, hsome⟩ := hsome
      rw [← (hon c hc node (List.mem_flatMap.mpr ⟨n, hn, hnode⟩)).mp hsome]
      exact List.mem_map_of_mem hnode
    · refine ⟨root, List.mem_singleton_self root, hplace.roots_isSome c.template ?_⟩
      rw [← hT, roots_map]
      exact List.mem_map_of_mem hc
  have hresult := @Block.reinsertAll_extractAll B' _ root hC₂.wellFormed
  rw [hrun, hK] at hresult
  refine hresult ⟨hparts.wellFormed, hdis, hparts.parent?_eq, hon, fun c hc => ?_⟩
    (hhoused.laminar hdis hanchors) (hhoused.chained fun _ hn => hn)
  obtain ⟨p, hp, hfirst, -⟩ := hcuts c hc
  rw [hfirst]
  exact (hplaced.first_mem hC₂ p hp).2

/-- Without tables the contents of all blocks can be taken out and put back, and the document is then the
one in which the blocks were placed. -/
theorem reinsertAll_of_tableFree (h : Processable settings d root)
    (hfree : TableFree (d.labelsAt root)) (hB : Block.nest (prepare settings root d).1 = .ok B) :
    ∃ B' d₂ T d₃, Stages settings root d B B' d₂ T d₃ ∧ Block.reinsertAll root T d₃ = some d₂ := by
  obtain ⟨B', d₂, T, d₃, -, hstages, -⟩ := h.exists_stages hB
  exact ⟨B', d₂, T, d₃, hstages, hstages.reinsertAll_eq h (h.anchorsInPlace hfree hstages)⟩

end Restoring

/-- Three paragraphs with a section of a condition within a collection. -/
def nestedSections : Document :=
  Word.documentOf (Word.paragraphOf "{{#A}}" ++
    (Word.paragraphOf "x {{?b}}y{{:}}z{{/}}" ++ Word.paragraphOf "{{/A}}"))

theorem reinsertAll_nestedSections : ∃ B B' d₂ T d₃,
    Stages {} nestedSections.root nestedSections B B' d₂ T d₃ ∧
      Block.reinsertAll nestedSections.root T d₃ = some d₂ := by
  have hfree : TableFree (nestedSections.labelsAt nestedSections.root) := by
    rw [nestedSections, labelsAt_root_documentOf]
    decide
  cases hB : Block.nest (prepare {} nestedSections.root nestedSections).1 with
  | error e =>
    have hok : (Block.nest (prepare {} nestedSections.root nestedSections).1).isOk = true := by
      decide +kernel
    rw [hB] at hok
    cases hok
  | ok B =>
    exact ⟨B, reinsertAll_of_tableFree (processable_documentOf (by decide +kernel)) hfree hB⟩

/-! ## Contents that cannot be put back -/

/-- What becomes of a document whose contents are taken out and put back, if its blocks can be placed. -/
def reinserted? (settings : Settings) (root : NodeId) (d : Document) : Option (Option Document) :=
  match Block.nest (prepare settings root d).1 with
  | .error _ => none
  | .ok B =>
    match Block.placeAll (B.number 0) (prepare settings root d).2 with
    | .error _ _ => none
    | .ok B' d₂ => some (Block.reinsertAll root (Block.extractAll B' d₂).1 (Block.extractAll B' d₂).2)

theorem exists_stages_of_reinserted? {settings : Settings} {root : NodeId} {d : Document}
    {outcome : Option Document} (h : reinserted? settings root d = some outcome) :
    ∃ B B' d₂ T d₃, Stages settings root d B B' d₂ T d₃ ∧ Block.reinsertAll root T d₃ = outcome := by
  rw [reinserted?] at h
  split at h
  · cases h
  · next B hB =>
    split at h
    · cases h
    · next B' d₂ hB' => exact ⟨B, B', d₂, _, _, ⟨hB, hB', rfl⟩, Option.some.inj h⟩

/-- A directive in a line break. -/
def keywordInLineBreak : Document :=
  Word.documentOf (tree (.element ⟨Word.paragraph, []⟩) (tree (.element ⟨Word.run, []⟩)
    (Word.textOf "{{v}}" ++ tree (.element ⟨Word.lineBreak, []⟩) (Word.textOf "{{:br}}"))))

/-- A line break that is trimmed takes the anchor along that is in it. Nor can contents be put back in
general if the scope is a table or a row itself: the content of one block may hold the anchor of another
that is put back before, and the content of a block in a row is the row. -/
theorem reinsertAll_fails_in_lineBreak_table_row :
    (Processable {} keywordInLineBreak keywordInLineBreak.root ∧
      TableFree (keywordInLineBreak.labelsAt keywordInLineBreak.root) ∧
      ∃ B B' d₂ T d₃, Stages { trimLineBreaks := true } keywordInLineBreak.root keywordInLineBreak B B' d₂
        T d₃ ∧ Block.reinsertAll keywordInLineBreak.root T d₃ = none) ∧
    reinserted? {} ⟨0⟩ (.ofTree ⟨Word.table, []⟩
      (Word.paragraphOf "{{?b}}x{{/}}{{#A}}" ++ Word.paragraphOf "{{/A}}")) = some none ∧
    reinserted? {} ⟨2⟩ (Word.documentOf (Word.tableOf [["{{?b}}x", "y{{/}}"]])) = some none := by
  refine ⟨⟨processable_documentOf (by decide +kernel), ?_,
    exists_stages_of_reinserted? (by decide +kernel)⟩, by decide +kernel⟩
  rw [keywordInLineBreak, labelsAt_root_documentOf]
  decide

end WordTemplate
