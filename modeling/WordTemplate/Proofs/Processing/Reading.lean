import WordTemplate.Proofs.Block.ExtractAny
import WordTemplate.Proofs.Block.InPlace
import WordTemplate.Proofs.Block.PlaceAny
import WordTemplate.Proofs.Preparation
import WordTemplate.Proofs.Processing.Stages

/-!
# Reading the blocks of a document

If the directives of a document can be nested, all blocks can be placed, around rows of tables or
not. Their contents are then sound trees of their own, and every block has one anchor, in the scope or
in the content of some block: `Processable.exists_stages`.
-/

namespace WordTemplate

open Xml Forest

/-- Whether a scope can be processed: its document is well-formed, the scope is neither a text element
nor a row, and there are no marks and insertion points in it yet, nor texts in places where processing
does not look for any. -/
structure Processable (settings : Settings) (d : Document) (root : NodeId) : Prop where
  wellFormed : d.WellFormed
  exists_label : ∃ label, d.label? root = some label ∧ label.isNamed Word.text = false ∧
    label.isNamed Word.row = false
  pristine : Pristine settings.mute (d.labelsAt root)

/-- Whether blocks have their contents in trees of their own, each has one anchor, in the scope, which
shows `ss`, or in one of the contents, and no text has more than one mark. -/
structure Taken (mute : List String) (d : Document) (root : NodeId) (T : Forest Block.Template)
    (ss : List Sign) : Prop where
  isScoped : Scoped d root mute ss
  isStored : Stored d root mute T
  nodup : (T.toList.map (·.number)).Nodup
  anchors_perm : (anchorIds ss ++ shownIds d.contentOf T).Perm (T.toList.map (·.anchor.id))
  scope_isTidy : ∀ s ∈ ss, s.IsTidy
  content_isTidy : ∀ t ∈ T.toList, ∀ s ∈ signs (d.contentOf t), s.IsTidy

section Anchors

variable {d : Document} {root : NodeId} {mute : List String} {T : Forest Block.Template}

/-- The anchors among some nodes. -/
def anchorsOf (N : List Node) : List String :=
  N.filterMap (·.label.anchorId?)

theorem anchorIds_signs_labels {f : Forest Node} (hs : Sound mute (labels f)) :
    anchorIds (signs (labels f)) = anchorsOf f.toList := by
  rw [anchorIds_signs hs, labels, toList_map, List.filterMap_map]
  rfl

theorem anchorsOf_contentsOf (hs : ∀ t ∈ T.toList, Sound mute (d.contentOf t)) :
    anchorsOf (nodesAt d (contentsOf T)) = shownIds d.contentOf T := by
  rw [shownIds, contentsOf, nodesAt, List.flatMap_assoc, anchorsOf, List.filterMap_flatMap]
  refine List.flatMap_congr fun t ht => ?_
  rw [Document.contentOf, Document.contentLabels, anchorIds_signs_labels (hs t ht), toList_treesAt]
  rfl

theorem anchorIds_map_sign (ls : List Landmark) :
    anchorIds (ls.map Landmark.sign) = ((keysOf ls).map Prod.snd).filterMap Sign.anchorId? := by
  rw [anchorIds, keysOf, List.map_map]
  rfl

end Anchors

section Reading

variable {settings : Settings} {root : NodeId} {d d₂ : Document} {B : Forest Block}

theorem Stages.unique {B₁ : Forest Block} {B' B₁' : Forest Block.Placed} {d₃ d₂' d₃' : Document}
    {T T' : Forest Block.Template} (h : Stages settings root d B B' d₂ T d₃)
    (h' : Stages settings root d B₁ B₁' d₂' T' d₃') : T = T' ∧ d₃ = d₃' := by
  obtain rfl : B = B₁ := Except.ok.inj (h.nest_eq.symm.trans h'.nest_eq)
  obtain ⟨rfl, rfl⟩ := EStateM.Result.ok.inj (h.placeAll_eq.symm.trans h'.placeAll_eq)
  exact Prod.mk.inj (h.extractAll_eq.symm.trans h'.extractAll_eq)

/-- The scope is neither a text element nor a row after the preparation, either. -/
theorem Prepares.isNamed_row_eq_false {ls : List Landmark} {ts : List Token}
    (h : Prepares settings d root ls ts) {label : Label} (hlabel : d.label? root = some label)
    (hrow : label.isNamed Word.row = false) (hne : ls ≠ []) :
    ∀ l, (prepare settings root d).2.label? root = some l → l.isNamed Word.row = false := by
  intro l hl
  obtain ⟨x, hx⟩ := List.exists_mem_of_ne_nil ls hne
  obtain ⟨node, cs, hnode, hland⟩ := h.charted.exists_eq
  obtain rfl : node.label = l := by
    rw [Document.label?, hnode] at hl
    exact Option.some.inj hl
  rw [← h.charted.landmarks_eq, hnode] at hx
  have htop := getLast?_path hland hx
  rw [h.getLast?_eq x (by rwa [← h.charted.landmarks_eq, hnode]), hlabel] at htop
  have hname : label.name? = node.label.name? := congrArg Crumb.name (Option.some.inj htop)
  rwa [Label.isNamed, ← hname]

/-- The first nodes of placed blocks are below the scope. -/
theorem Block.PlacesAny.first_mem {mute : List String} {F : Forest (Nat × Block)}
    {B' : Forest Block.Placed} {ls : List Landmark} (h : Block.PlacesAny mute d d₂ root F B')
    (hC : Charted d₂ root mute ls) :
    ∀ p ∈ B'.toList, p.first ∈ (d₂.treeAt root).toList.map Node.id ∧ p.first ≠ root := by
  intro p hp
  have hkey : p.key ∈ keysOf (landmarks (d₂.treeAt root)) :=
    h.keys_perm.mem_iff.mpr (List.mem_append_left _ (List.mem_map_of_mem hp))
  obtain ⟨x, hx, hxp⟩ := List.mem_map.mp hkey
  have hfirst : x.node = p.first := congrArg Prod.fst hxp
  refine ⟨hfirst ▸ (mem_ids_of_mem_landmarks hx).1, ?_⟩
  obtain ⟨node, cs, hnode, hland⟩ := hC.exists_eq
  obtain ⟨-, rfl⟩ := hC.wellFormed.mem_ids_of_treeAt hnode
  have hnd := hC.wellFormed.nodup_treeAt node.id
  rw [hnode] at hx hnd
  rw [landmarks_tree cs hland] at hx
  obtain ⟨y, hy, rfl⟩ := List.mem_map.mp hx
  rw [ids_tree, List.nodup_cons] at hnd
  rw [← hfirst]
  intro he
  exact hnd.1 (he ▸ (mem_ids_of_mem_landmarks hy).1)

/-- What there is of the anchors after the blocks of a scope without anchors have been placed and
their contents taken out. -/
theorem anchors_perm {mute : List String} {F : Forest (Nat × Block)} {B' : Forest Block.Placed}
    {T : Forest Block.Template} {d₁ d₃ : Document} {ls : List Landmark} (hC : Charted d₁ root mute ls)
    (hls : ∀ x ∈ ls, x.sign.isAnchor = false) (hplaced : Block.PlacesAny mute d₁ d₂ root F B')
    (hex : ExtractsAny mute (d₂.treeAt root).toList d₂ d₃ root [] B' T) :
    (anchorIds (signs (labels (d₃.treeAt root))) ++ shownIds d₃.contentOf T).Perm
      (T.toList.map (·.anchor.id)) := by
  have hparts := hex.parts
  rw [List.append_nil] at hparts
  have hkeys : T.toList.map (·.anchor.id) = B'.toList.map fun p =>
      (Block.startPoint p.block.kind p.number).id := by
    have := congrArg Forest.toList hex.numbers_eq
    rw [toList_map, toList_map] at this
    have := congrArg (List.map fun q : Nat × Block => (Block.startPoint q.2.kind q.1).id) this
    rw [List.map_map, List.map_map] at this
    exact this
  have hnone : ((keysOf ls).map Prod.snd).filterMap Sign.anchorId? = [] := by
    rw [← anchorIds_map_sign, anchorIds, List.filterMap_eq_nil_iff]
    intro s hs
    obtain ⟨x, hx, rfl⟩ := List.mem_map.mp hs
    have := hls x hx
    cases hsign : x.sign with
    | text marks content => rfl
    | anchor id => simp [hsign, Sign.isAnchor] at this
  calc (anchorIds (signs (labels (d₃.treeAt root))) ++ shownIds d₃.contentOf T)
      = anchorsOf (nodesAt d₃ (root :: contentsOf T)) := by
        rw [anchorIds_signs_labels (hparts.sound root (List.mem_cons_self ..)),
          ← anchorsOf_contentsOf fun t ht => (hparts.stored t ht).2, nodesAt_cons]
        simp only [anchorsOf, List.filterMap_append]
    (anchorsOf _).Perm (anchorsOf (d₂.treeAt root).toList) := hparts.perm.filterMap _
    _ = ((keysOf (landmarks (d₂.treeAt root))).map Prod.snd).filterMap Sign.anchorId? := by
        rw [← anchorIds_map_sign, ← signs_labels, anchorIds_signs_labels hplaced.retains.sound]
    List.Perm _ (((B'.toList.map Block.Placed.key ++ keysOf ls).map Prod.snd).filterMap
        Sign.anchorId?) := by
      have := hplaced.keys_perm
      rw [hC.landmarks_eq] at this
      exact (this.map _).filterMap _
    _ = T.toList.map (·.anchor.id) := by
      rw [List.map_append, List.filterMap_append, hnone, List.append_nil, hkeys, List.map_map,
        List.filterMap_map]
      exact congrFun List.filterMap_eq_map B'.toList

/-- In a document that has been prepared no text has more than one mark. -/
theorem Reads.isTidy {ls : List Landmark} {ts : List Token} {ms : List Marker} (h : Reads ls ts ms) :
    ∀ x ∈ ls, x.sign.IsTidy := by
  induction h with
  | nil => simp
  | text hx _ ih =>
    rintro y (_ | ⟨_, hy⟩)
    · rw [hx]
      rfl
    · exact ih y hy
  | directive hx _ _ ih =>
    rintro y (_ | ⟨_, hy⟩)
    · rw [hx.sign_eq]
      rfl
    · exact ih y hy

theorem isTidy_of_labels {mute : List String} {f : Forest Label} (hs : Sound mute f)
    (h : ∀ l ∈ f.toList, ∀ m ∈ l.textMarks?, m.tail = []) : ∀ s ∈ signs f, s.IsTidy := by
  intro s hmem
  rw [Sign.isTidy_iff]
  intro m hm
  have hmarks : m ∈ (signs f).filterMap Sign.marks? := List.mem_filterMap.mpr ⟨s, hmem, hm⟩
  rw [textMarks_signs hs] at hmarks
  obtain ⟨l, hl, hm⟩ := List.mem_filterMap.mp hmarks
  exact h l hl m hm

/-- Placing blocks and taking out their contents marks no text. -/
theorem marks_tail_eq_nil {mute : List String} {F : Forest (Nat × Block)} {B' : Forest Block.Placed}
    {T : Forest Block.Template} {d₁ d₃ : Document} {ls : List Landmark} (hC : Charted d₁ root mute ls)
    (hls : ∀ x ∈ ls, x.sign.IsTidy) (hplaced : Block.PlacesAny mute d₁ d₂ root F B')
    (hparts : Parts mute (d₂.treeAt root).toList d₃ root (contentsOf T)) :
    ∀ n ∈ nodesAt d₃ (root :: contentsOf T), ∀ m ∈ n.label.textMarks?, m.tail = [] := by
  intro n hn m hm
  have hmarks : m ∈ (labels (d₂.treeAt root)).toList.filterMap Label.textMarks? := by
    rw [labels, toList_map, List.filterMap_map]
    exact List.mem_filterMap.mpr ⟨n, hparts.perm.mem_iff.mp hn, hm⟩
  rw [← textMarks_signs hplaced.retains.sound, signs_labels, List.mem_filterMap] at hmarks
  obtain ⟨s, hs, hm⟩ := hmarks
  obtain ⟨x, hx, rfl⟩ := List.mem_map.mp hs
  have hkey : (x.node, x.sign) ∈ keysOf (landmarks (d₂.treeAt root)) :=
    List.mem_map.mpr ⟨x, hx, rfl⟩
  rw [hplaced.keys_perm.mem_iff, hC.landmarks_eq, List.mem_append] at hkey
  rcases hkey with hkey | hkey
  · obtain ⟨p, -, hp⟩ := List.mem_map.mp hkey
    have hsign : x.sign = .anchor (Block.startPoint p.block.kind p.number).id :=
      (congrArg Prod.snd hp).symm
    rw [hsign] at hm
    cases hm
  · obtain ⟨y, hy, hp⟩ := List.mem_map.mp hkey
    have hsign : y.sign = x.sign := congrArg Prod.snd hp
    exact Sign.isTidy_iff.mp (hls y hy) m (hsign ▸ hm)

/-- If the directives can be nested, the blocks can be placed and their contents taken out. -/
theorem Processable.exists_extracted (h : Processable settings d root)
    (hB : Block.nest (prepare settings root d).1 = .ok B) :
    ∃ ls B' d₂ T d₃, Stages settings root d B B' d₂ T d₃ ∧
      Charted (prepare settings root d).2 root settings.mute ls ∧
      (∀ x ∈ ls, x.sign.isAnchor = false ∧ x.sign.IsTidy) ∧
      Block.PlacesAny settings.mute (prepare settings root d).2 d₂ root (B.number 0) B' ∧
      ExtractsAny settings.mute (d₂.treeAt root).toList d₂ d₃ root [] B' T := by
  obtain ⟨label, hlabel, htext, hrow⟩ := h.exists_label
  obtain ⟨ls, ts, hprep⟩ := prepare_spec h.wellFormed hlabel htext h.pristine
  obtain ⟨P, hlayout, -⟩ := Block.nest_spec hprep.reads hB
  have hplain := hlayout.isAnchor_eq
  have htexts : (textsOf ls).map Prod.fst = ls.map Landmark.node := by
    rw [textsOf, List.filter_eq_self.mpr, keysOf, List.map_map]
    · rfl
    · intro k hk
      obtain ⟨x, hx, rfl⟩ := List.mem_map.mp hk
      simpa using hplain x hx
  obtain ⟨B', d₂, hplaced⟩ := Block.exists_placesAny (F := B.number 0) hprep.charted
    (Settings.not_mem_mute (by decide)) (Settings.not_mem_mute (by decide))
    (hprep.isNamed_row_eq_false hlabel hrow) fun b hb => by
      have hmem : b.2 ∈ B.toList := by
        have := List.mem_map_of_mem (f := Prod.snd) hb
        rwa [← toList_map, map_snd_number] at this
      rw [htexts]
      exact hlayout.inOrder b.2 hmem
  have hC₂ := hplaced.retains.charted hprep.charted
  have hparts : Parts settings.mute (d₂.treeAt root).toList d₂ root [] := by
    refine ⟨hC₂.wellFormed, by simp [nodesAt], hC₂.wellFormed.nodup_treeAt root, ?_, by simp, ?_⟩
    · simpa using hC₂.mem_ids
    · simpa using hC₂.sound
  obtain ⟨T, d₃, hex⟩ := exists_extractsAny hparts (hplaced.first_mem hC₂)
  exact ⟨ls, B', d₂, T, d₃, ⟨hB, hplaced.run, hex.run⟩, hprep.charted,
    fun x hx => ⟨hplain x hx, hprep.reads.isTidy x hx⟩, hplaced, hex⟩

/-- The blocks have numbers of their own. -/
theorem Block.PlacesAny.nodup_numbers {mute : List String} {d₁ : Document} {B' : Forest Block.Placed}
    (h : Block.PlacesAny mute d₁ d₂ root (B.number 0) B') : (B'.toList.map (·.number)).Nodup := by
  have hnumbers := congrArg Forest.toList h.numbers_eq
  rw [toList_map] at hnumbers
  have : B'.toList.map (·.number) = (B.number 0).toList.map Prod.fst := by
    rw [← hnumbers, List.map_map]
    rfl
  rw [this, map_fst_toList_number]
  exact List.nodup_range'

/-- If the directives can be nested, all stages are gone through. -/
theorem Processable.exists_stages (h : Processable settings d root)
    (hB : Block.nest (prepare settings root d).1 = .ok B) :
    ∃ B' d₂ T d₃ ss, Stages settings root d B B' d₂ T d₃ ∧ Taken settings.mute d₃ root T ss := by
  obtain ⟨ls, B', d₂, T, d₃, hstages, hC, hls, hplaced, hex⟩ := h.exists_extracted hB
  have hC₂ := hplaced.retains.charted hC
  have hparts₃ := hex.parts
  rw [List.append_nil] at hparts₃
  refine ⟨B', d₂, T, d₃, signs (labels (d₃.treeAt root)), hstages, ?_⟩
  have hmarks := marks_tail_eq_nil hC (fun x hx => (hls x hx).2) hplaced hparts₃
  refine ⟨⟨hparts₃.wellFormed, ?_, hparts₃.sound root (List.mem_cons_self ..), rfl⟩, hparts₃.stored,
    ?_, anchors_perm hC (fun x hx => (hls x hx).1) hplaced hex, ?_, fun t ht => ?_⟩
  · obtain ⟨node, cs, hnode, hland⟩ := hC₂.exists_eq
    obtain ⟨node', cs', -, hnode'⟩ :=
      hparts₃.wellFormed.exists_treeAt (hparts₃.mem_ids root (List.mem_cons_self ..))
    have hsame := hex.label?_eq
    rw [Document.label?, Document.label?, hnode, hnode'] at hsame
    exact ⟨node', cs', hnode', (Option.some.inj hsame : node'.label = node.label) ▸ hland⟩
  · have hnumbers := congrArg Forest.toList hex.numbers_eq
    rw [toList_map, toList_map] at hnumbers
    have := congrArg (List.map Prod.fst) hnumbers
    rw [List.map_map, List.map_map] at this
    exact (this : T.toList.map (·.number) = _) ▸ hplaced.nodup_numbers
  · refine isTidy_of_labels (hparts₃.sound root (List.mem_cons_self ..)) fun l hl => ?_
    rw [labels, toList_map] at hl
    obtain ⟨n, hn, rfl⟩ := List.mem_map.mp hl
    exact hmarks n (by rw [nodesAt_cons]; exact List.mem_append_left _ hn)
  · refine isTidy_of_labels (hparts₃.stored t ht).2 fun l hl => ?_
    rw [Document.contentOf, Document.contentLabels, labels, toList_map, toList_treesAt] at hl
    obtain ⟨n, hn, rfl⟩ := List.mem_map.mp hl
    refine hmarks n (List.mem_flatMap.mpr ?_)
    obtain ⟨i, hi, hn⟩ := List.mem_flatMap.mp hn
    exact ⟨i, List.mem_cons_of_mem _ (List.mem_flatMap.mpr ⟨t, ht, hi⟩), hn⟩

/-- What there is after the stages of a scope that can be processed. -/
theorem Processable.exists_taken {B' : Forest Block.Placed} {T : Forest Block.Template}
    {d₃ : Document} (h : Processable settings d root) (hstages : Stages settings root d B B' d₂ T d₃) :
    ∃ ss, Taken settings.mute d₃ root T ss := by
  obtain ⟨B₁', d₂', T', d₃', ss, hstages', htaken⟩ := h.exists_stages hstages.nest_eq
  obtain ⟨rfl, rfl⟩ := hstages.unique hstages'
  exact ⟨ss, htaken⟩

end Reading

end WordTemplate
