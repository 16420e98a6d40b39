import WordTemplate.Finishing
import WordTemplate.Processing
import WordTemplate.Proofs.Preparation

/-!
# Passes over the texts of a document

A pass makes its changes at one node after another. What is known of a document before each of them (`ready`), at
which nodes they are made (`spot`) and what they keep (`kept`) are different things for different purposes; what the
whole pass keeps follows in the same way each time.

* `Isolating`: isolating directives. `Isolating.isolateAll`, `Isolating.prepare`: the passes.
* `Cleaning`: what is done in the end. `Cleaning.removeDirectiveTexts`, `Cleaning.renumberDrawings`,
  `Cleaning.ensureCellParagraphs`: the passes.
-/

namespace WordTemplate

open Xml Xml.Document

variable {ready : Document → Prop} {kept : Document → Document → Prop} {d d' : Document} {root n : NodeId}

/-- Whether changes keep something if each of them does, one after another. -/
structure Successive (ready : Document → Prop) (kept : Document → Document → Prop) : Prop where
  refl : ∀ {d}, ready d → kept d d
  trans : ∀ {d d' d''}, kept d d' → kept d' d'' → kept d d''
  ready_kept : ∀ {d d'}, ready d → kept d d' → ready d'

theorem Successive.foldl {α : Type} {f : Document → α → Document} {l : List α} (K : Successive ready kept) (h : ready d)
    (hf : ∀ d', kept d d' → ready d' → ∀ a ∈ l, kept d' (f d' a)) : kept d (l.foldl f d) :=
  List.foldlRecOn l f (K.refl h) fun d' hd' a ha => K.trans hd' (hf d' hd' (K.ready_kept h hd') a ha)

/-! ## Isolating directives -/

section Isolating

variable {spot : Document → NodeId → Prop} {j : Forest Node → Forest Node → Forest Node} {flat flat' : FlatText}
  {start stop : Nat} {kind : Directive.Kind}

/-- Whether the changes that isolating a directive makes at texts keep something. -/
structure Isolating (ready : Document → Prop) (spot : Document → NodeId → Prop) (kept : Document → Document → Prop) :
    Prop extends Successive ready kept where
  spot_kept : ∀ {d d' n}, ready d → kept d d' → spot d n → spot d' n
  writeText : ∀ {d n}, ready d → spot d n → ∀ content, kept d (d.writeText n content)
  setMark : ∀ {d n}, ready d → spot d n → ∀ name, kept d (d.setAttribute n Word.markAttribute name)
  /-- A new text, put beside one. -/
  insertText : ∀ {d n} {put : Forest Node → Forest Node → Forest Node}, ready d → spot d n →
    (∀ f g, put f g = f ++ g ∨ put f g = g ++ f) → ∀ content,
    kept d ((d.createTextElement content).2.insertBeside put n (d.createTextElement content).1) ∧
      spot ((d.createTextElement content).2.insertBeside put n (d.createTextElement content).1)
        (d.createTextElement content).1
  dropFront : ∀ {d n}, ready d → spot d n → ∀ count, kept d (FlatText.dropFront d n count)

namespace Isolating

variable (K : Isolating ready spot kept) (h : ready d)
include K h

theorem insertPart (hn : spot d n) (hput : ∀ f g, j f g = f ++ g ∨ j f g = g ++ f) (content : List Char) :
    kept d (FlatText.insertPart (fun d => d.insertBeside j) d n content).2 ∧
      spot (FlatText.insertPart (fun d => d.insertBeside j) d n content).2
        (FlatText.insertPart (fun d => d.insertBeside j) d n content).1 := by
  unfold FlatText.insertPart
  split
  · exact ⟨K.refl h, hn⟩
  · exact K.insertText h hn hput _

/-- Isolating a directive. -/
theorem isolate (hflat : ∀ e ∈ flat.entries, spot d e.node)
    (hrun : flat.isolate d start stop kind = some (n, flat', d')) :
    kept d d' ∧ spot d n ∧ ∀ e ∈ flat'.entries, spot d' e.node := by
  unfold FlatText.isolate at hrun
  dsimp only at hrun
  split at hrun
  · cases hrun
  next first others hcovered =>
  split at hrun
  · cases hrun
  simp only [Option.some.injEq, Prod.mk.injEq] at hrun
  obtain ⟨rfl, rfl, rfl⟩ := hrun
  have hmem : ∀ e ∈ (flat.entries.drop start).take (stop - start), spot d e.node := fun e he =>
    hflat e (List.drop_subset _ _ (List.take_subset _ _ he))
  have hfirst := hmem first (by rw [hcovered]; exact List.mem_cons_self ..)
  generalize (flat.entries.drop start).take (stop - start) = covered at hmem
  have hwritten := K.writeText h hfirst (String.ofList (covered.map FlatText.Entry.char))
  have hready := K.ready_kept h hwritten
  have hmarked := K.trans hwritten (K.setMark hready (K.spot_kept h hwritten hfirst) kind.name)
  have hready := K.ready_kept h hmarked
  -- The two parts around the directive.
  obtain ⟨hfront, hfrontSpot⟩ := K.insertPart hready (K.spot_kept h hmarked hfirst)
    (j := fun moved sibling => moved ++ sibling) (fun _ _ => .inl rfl)
    ((d.innerText first.node).toList.take first.offset)
  have hready₁ := K.ready_kept hready hfront
  replace hfront := K.trans hmarked hfront
  obtain ⟨hback, hbackSpot⟩ := K.insertPart hready₁ (K.spot_kept h hfront hfirst)
    (j := fun moved sibling => sibling ++ moved) (fun _ _ => .inr rfl)
    ((d.innerText first.node).toList.drop
      (((covered.filter (·.node == first.node)).map (·.offset + 1)).getLastD 0))
  have hready₂ := K.ready_kept hready₁ hback
  have hparted := K.trans hfront hback
  have hcleared := K.foldl (l := ((covered.map FlatText.Entry.node).filter (· != first.node)).eraseDups)
    (f := fun d n => FlatText.dropFront d n (covered.countP (·.node == n))) hready₂ fun d' hd' hready' m hm => by
      rw [List.mem_eraseDups, List.mem_filter, List.mem_map] at hm
      obtain ⟨⟨e, he, rfl⟩, -⟩ := hm
      exact K.dropFront hready' (K.spot_kept h (K.trans hparted hd') (hmem e he)) _
  have hall := K.trans hparted hcleared
  refine ⟨hall, hfirst, fun e he => ?_⟩
  obtain ⟨i, hi, rfl⟩ := List.mem_mapIdx.mp he
  have hold := K.spot_kept h hall (hflat flat.entries[i] (List.getElem_mem hi))
  rw [FlatText.Isolation.place]
  split
  · exact K.spot_kept h hall hfirst
  · split
    · split
      · exact K.spot_kept hready₂ hcleared (K.spot_kept hready₁ hback hfrontSpot)
      · exact K.spot_kept hready₂ hcleared hbackSpot
    · exact hold

/-- Isolating directives one after another. -/
theorem isolateAll (ds : List Directive) (hflat : ∀ e ∈ flat.entries, spot d e.node) :
    kept d (isolateAll flat d ds).2 ∧ ∀ m ∈ (isolateAll flat d ds).1, spot (isolateAll flat d ds).2 m.node := by
  induction ds generalizing flat d with
  | nil => exact ⟨K.refl h, fun m hm => by cases hm⟩
  | cons directive ds ih =>
    rw [WordTemplate.isolateAll]
    split
    · exact ih h hflat
    · next n flat' d' hrun =>
      obtain ⟨hstep, hn, hflat'⟩ := K.isolate h hflat hrun
      obtain ⟨hrest, hmarkers⟩ := ih (K.ready_kept h hstep) hflat'
      refine ⟨K.trans hstep hrest, fun m hm => ?_⟩
      rcases List.mem_cons.mp hm with rfl | hm
      · exact K.spot_kept h (K.trans hstep hrest) hn
      · exact hmarkers m hm

/-- Isolating the directives of a scope. -/
theorem isolateDirectives (htexts : ∀ n ∈ d.textElements root, spot d n) :
    kept d (isolateDirectives d root).2 ∧
      ∀ m ∈ (isolateDirectives d root).1, spot (isolateDirectives d root).2 m.node := by
  refine K.isolateAll h _ fun e he => ?_
  obtain ⟨n, hn, he⟩ := List.mem_flatMap.mp he
  obtain ⟨i, -, rfl⟩ := List.mem_mapIdx.mp he
  exact htexts n hn

/-- Preparing a scope, if that is kept when what can stand in the middle of directives and next to them is taken
out. -/
theorem prepare (settings : Settings) (hmarkup : kept d (d.removeMarkup root))
    (htexts : ∀ n ∈ (d.removeMarkup root).textElements root, spot (d.removeMarkup root) n)
    (htrim : settings.trimLineBreaks = true → ∀ {d}, ready d → ∀ n, kept d (d.trimLineBreaks n)) :
    kept d (prepare settings root d).2 ∧
      ∀ m ∈ (prepare settings root d).1, spot (prepare settings root d).2 m.node := by
  have hready := K.ready_kept h hmarkup
  obtain ⟨hisolated, hmarkers⟩ := K.isolateDirectives hready htexts
  have hready := K.ready_kept hready hisolated
  replace hisolated := K.trans hmarkup hisolated
  rw [prepare_snd]
  split
  · next hset =>
    have htrimmed := K.foldl (l := (WordTemplate.isolateDirectives (d.removeMarkup root) root).1.map Marker.node)
      hready fun _ _ hready' m _ => htrim hset hready' m
    exact ⟨K.trans hisolated htrimmed, fun m hm => K.spot_kept hready htrimmed (hmarkers m hm)⟩
  · exact ⟨hisolated, hmarkers⟩

end Isolating

end Isolating

/-! ## Finishing -/

section Cleaning

variable {spot : String → Document → NodeId → Prop}

/-- Whether the changes that are made at texts, drawings and cells in the end keep something. -/
structure Cleaning (ready : Document → Prop) (spot : String → Document → NodeId → Prop)
    (kept : Document → Document → Prop) : Prop extends Successive ready kept where
  spot_kept : ∀ {name d d' n}, ready d → kept d d' → spot name d n → spot name d' n
  /-- The paragraph of a text. -/
  spot_paragraph : ∀ {d n p}, ready d → d.ancestorNamed? n Word.paragraph = some p → spot Word.paragraph d p
  eraseMark : ∀ {d n}, ready d → spot Word.text d n → kept d (d.eraseAttribute n Word.markAttribute)
  detachFromRun : ∀ {d n}, ready d → spot Word.text d n → kept d (d.detachFromRun n)
  setNumber : ∀ {d n}, ready d → spot Word.drawing d n → ∀ number, kept d (d.setAttribute n "id" number)
  ensureParagraph : ∀ {d n}, ready d → spot Word.cell d n → kept d (ensureParagraph d n)

namespace Cleaning

variable (K : Cleaning ready spot kept) (h : ready d)
include K h

/-- The mark of a text is taken away, or the text. -/
theorem removeDirectiveText {ps : List NodeId} (hn : spot Word.text d n) (hps : ∀ p ∈ ps, spot Word.paragraph d p) :
    kept d (removeDirectiveText (ps, d) n).2 ∧
      ∀ p ∈ (Document.removeDirectiveText (ps, d) n).1,
        spot Word.paragraph (Document.removeDirectiveText (ps, d) n).2 p := by
  unfold Document.removeDirectiveText
  dsimp only
  split
  · exact ⟨K.refl h, hps⟩
  · have herased := K.eraseMark h hn
    exact ⟨herased, fun p hp => K.spot_kept h herased (hps p hp)⟩
  · have hout := K.detachFromRun h hn
    refine ⟨hout, fun p hp => K.spot_kept h hout ?_⟩
    rcases List.mem_append.mp hp with hp | hp
    · exact hps p hp
    · exact K.spot_paragraph h (Option.mem_toList.mp hp)

theorem foldl_removeDirectiveText {ns ps : List NodeId} (hns : ∀ n ∈ ns, spot Word.text d n)
    (hps : ∀ p ∈ ps, spot Word.paragraph d p) :
    kept d (ns.foldl Document.removeDirectiveText (ps, d)).2 ∧
      ∀ p ∈ (ns.foldl Document.removeDirectiveText (ps, d)).1,
        spot Word.paragraph (ns.foldl Document.removeDirectiveText (ps, d)).2 p := by
  induction ns generalizing d ps with
  | nil => exact ⟨K.refl h, hps⟩
  | cons n ns ih =>
    rw [List.forall_mem_cons] at hns
    obtain ⟨hn, hps'⟩ := K.removeDirectiveText h hns.1 hps
    obtain ⟨hrest, hps''⟩ := ih (K.ready_kept h hn) (fun m hm => K.spot_kept h hn (hns.2 m hm)) hps'
    exact ⟨K.trans hn hrest, hps''⟩

/-- The texts of directives are taken away, and empty paragraphs if that is wanted. -/
theorem removeDirectiveTexts {strip : Bool} (htexts : ∀ n ∈ d.textElements root, spot Word.text d n)
    (hstrip : strip = true → ∀ {d p}, ready d → spot Word.paragraph d p → kept d (d.detachEmptyParagraph p)) :
    kept d (removeDirectiveTexts strip d root) := by
  obtain ⟨hcleared, hps⟩ := K.foldl_removeDirectiveText h htexts (List.forall_mem_nil _)
  have hready := K.ready_kept h hcleared
  unfold Document.removeDirectiveTexts
  dsimp only
  split
  · next hset =>
    exact K.trans hcleared (K.foldl hready fun d' hd' hready' p hp =>
      hstrip hset hready' (K.spot_kept hready hd' (hps p (List.mem_eraseDups.mp hp))))
  · exact hcleared

theorem renumber {found : List (NodeId × Nat)} (hfound : ∀ e ∈ found, spot Word.drawing d e.1)
    (used seen : List Nat) (next : Nat) : kept d (renumber used seen next d found) := by
  induction found generalizing d used seen next with
  | nil => exact K.refl h
  | cons e found ih =>
    obtain ⟨n, number⟩ := e
    rw [List.forall_mem_cons] at hfound
    rw [Document.renumber]
    split
    · have hset := K.setNumber h hfound.1 (toString (firstUnused used next))
      exact K.trans hset (ih (K.ready_kept h hset) (fun e he => K.spot_kept h hset (hfound.2 e he)) _ _ _)
    · exact ih h hfound.2 _ _ _

/-- Drawings get numbers. -/
theorem renumberDrawings (hbelow : ∀ node ∈ d.nodesBelow root, node.label.isNamed Word.drawing = true →
    spot Word.drawing d node.id) : kept d (d.renumberDrawings root) := by
  refine K.renumber h (fun e he => ?_) _ _ _
  obtain ⟨node, hnode, he⟩ := List.mem_filterMap.mp he
  split at he
  · next hname =>
    obtain ⟨id, -, he⟩ := Option.bind_eq_some_iff.mp he
    obtain ⟨number, -, rfl⟩ := Option.map_eq_some_iff.mp he
    exact hbelow node hnode hname
  · cases he

/-- Every cell has a paragraph. -/
theorem ensureCellParagraphs (hbelow : ∀ node ∈ d.nodesBelow root, node.label.isNamed Word.cell = true →
    spot Word.cell d node.id) : kept d (d.ensureCellParagraphs root) := by
  refine K.foldl h fun d' hd' hready' cell hcell => ?_
  obtain ⟨node, hnode, rfl⟩ := List.mem_map.mp hcell
  obtain ⟨hmem, hname⟩ := List.mem_filter.mp hnode
  exact K.ensureParagraph hready' (K.spot_kept h hd' (hbelow node hmem hname))

omit h in
/-- What comes after the insertion points have been taken away. -/
theorem finish {strip : Bool} (h : ready (d.removeInsertionPoints root))
    (htexts : ∀ {d}, ready d → ∀ n ∈ d.textElements root, spot Word.text d n)
    (hbelow : ∀ {d name}, ready d → ∀ node ∈ d.nodesBelow root, node.label.isNamed name = true → spot name d node.id)
    (hstrip : strip = true → ∀ {d p}, ready d → spot Word.paragraph d p → kept d (d.detachEmptyParagraph p)) :
    kept (d.removeInsertionPoints root) (d.finish strip root) := by
  unfold Document.finish
  dsimp only
  generalize d.removeInsertionPoints root = d₁ at h ⊢
  have htaken := K.removeDirectiveTexts h (htexts h) hstrip
  have h₂ := K.ready_kept h htaken
  generalize Document.removeDirectiveTexts strip d₁ root = d₂ at htaken h₂ ⊢
  have hnumbered := K.renumberDrawings h₂ (hbelow h₂)
  have h₃ := K.ready_kept h₂ hnumbered
  generalize d₂.renumberDrawings root = d₃ at hnumbered h₃ ⊢
  exact K.trans htaken (K.trans hnumbered (K.ensureCellParagraphs h₃ (hbelow h₃)))

end Cleaning

end Cleaning

end WordTemplate
