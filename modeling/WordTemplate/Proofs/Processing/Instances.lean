import WordTemplate.Proofs.Binding.Below
import WordTemplate.Proofs.Processing.Building
import WordTemplate.Proofs.Processing.Confined
import WordTemplate.Proofs.Processing.Expanding

/-!
# Instances do not depend on each other

The content of a block serves for many instances. It is taken out of the document before the first one is
made, in any document, with any tables in it, if the scope is a body or the whole document. From then on
it does not change, whatever the driver plans and wherever the expansion ends. So every instance is made
from the content as it was taken out, and consists of nodes that no other instance has.

* `Stages.contents`: nothing connects the contents to the scope.
* `instances_separate`: the whole expansion.
-/

namespace WordTemplate

open Xml Forest Binding Xml.Document

variable {σ : Type} {settings : Settings} {driver : Driver σ} {root : NodeId} {d d₂ d₃ : Document}
  {B : Forest Block} {B' : Forest Block.Placed} {T : Forest Block.Template}

/-- The contents that are taken out of a scope that is a body or has no parent have no parents, and the
scope is not in them. -/
theorem Stages.contents (h : Stages settings root d B B' d₂ T d₃) (wf : d.WellFormed)
    (hroot : root ∈ d.ids) (hscope : d.isNamed root Word.body = true ∨ d.parent? root = none) :
    d.Grows d₃ ∧ Detached d₃ T ∧ ¬ InContents d₃ T root ∧
      (d₃.isNamed root Word.text = false ∨ d₃.parent? root = none) := by
  have hname : ∀ name, name ≠ Word.body → (d.parent? root).isSome → d.isNamed root name = false := by
    intro name hne hparent
    rcases hscope with hbody | hnone
    · rw [Document.isNamed, beq_iff_eq] at hbody
      rw [Document.isNamed, hbody]
      simpa using Ne.symm hne
    · rw [hnone] at hparent
      cases hparent
  have hfence : Fenced (d.fence root False) d := fenced_fence wf hroot False fun hparent name hmem =>
    hname name (by rintro rfl; exact absurd hmem (by decide)) hparent
  obtain ⟨hall, hremoved⟩ := h.confined (F := d.fence root False) hfence False.elim
  refine ⟨hall.grows, fun t ht c hc => ?_, ?_, ?_⟩
  · exact ⟨(hremoved t ht c hc).enclosed.mem_ids, (hremoved t ht c hc).parent?_eq⟩
  · rintro ⟨t, ht, c, hc, hmem⟩
    obtain ⟨hin, hne, -⟩ := hremoved t ht c hc
    exact hall.fenced.not_mem_treeAt hin.not_outside hne hmem
  · by_cases ho : d.Outside root root
    · exact .inl (hall.fenced.not_named ho Word.text (by simp))
    · refine .inr (Option.eq_none_iff_forall_ne_some.mpr fun p hp => ho ?_)
      exact hall.fenced.of_mem_children p (hall.fenced.wellFormed.parent?_eq_some_iff.mp hp)

/-- What comes after the blocks have been read, with a log of the instances. -/
def expansion (settings : Settings) (driver : Driver σ) (root : NodeId) (T : Forest Block.Template) :
    Logged σ Unit := do
  Logged.just (Block.ask (driver.substitute root))
  Logged.expandAll settings.stripEmptyParagraphs driver T 0 .all root false

/-- The log changes nothing. -/
theorem step_expansion : (expansion settings driver root T).step =
    expandVia Block.resolveAnchor settings driver root T := by
  show Block.ask (driver.substitute root) >>= _ = _
  rw [expandVia, expandAllVia_resolveAnchor]
  simp only [Logged.step_expandAll]

/-- The expansion leaves the contents alone, and every instance is made of new nodes. -/
theorem keeps_expansion (settings : Settings) (hdriver : driver.StaysBelow) (wf : d.WellFormed) (hT : Detached d T)
    (hroot : root ∈ d.ids) (hnot : ¬ InContents d T root)
    (htext : d.isNamed root Word.text = false ∨ d.parent? root = none) (s : σ) :
    (expansion settings driver root T).Keeps (Instance.Separate d T) (InContents d T) ⟨d, s⟩
      fun _ _ => True := by
  have h : Standing d T (InContents d T) d := ⟨hT.closed wf, .refl wf, fun _ hn => hn⟩
  refine Logged.Keeps.bind (Q := fun _ _ => True) (Logged.keeps_just (Logged.leaves_substitute hdriver
    h.closed wf hroot hnot htext) fun _ _ _ => trivial) ?_
  rintro - w hleaves -
  exact Logged.keeps_expandAll hdriver hT (fun _ ht => ht) (h.of_leaves hleaves)
    (hleaves.grows.mem_ids _ hroot) hnot 0

/-- In an expansion the stored contents never change, and the nodes of two instances of which neither is
made within the other are distinct, and distinct from the contents. What an instance is copied from is
the content as it was taken out. -/
theorem instances_separate (wf : d.WellFormed) (hroot : root ∈ d.ids)
    (hscope : d.isNamed root Word.body = true ∨ d.parent? root = none) (hdriver : driver.StaysBelow)
    (h : Stages settings root d B B' d₂ T d₃) (s : σ) :
    (readBlocks settings root ⟨d, s⟩ = .ok T ⟨d₃, s⟩ →
      expandBlocks settings driver root ⟨d, s⟩ =
        (expansion settings driver root T).step ⟨d₃, s⟩) ∧
    (∀ n, InContents d₃ T n →
      d₃.Unchanged (documentAfter ((expansion settings driver root T).step ⟨d₃, s⟩)) n) ∧
    ((expansion settings driver root T).log ⟨d₃, s⟩).Beside
      (fun x y => x.nodes.Disjoint y.nodes) ∧
    ∀ x ∈ ((expansion settings driver root T).log ⟨d₃, s⟩).toList, x.template ∈ T.toList ∧
      (∀ n ∈ x.nodes, ¬ InContents d₃ T n) ∧
      (∀ n, InContents d₃ T n → d₃.Unchanged x.before n ∧ d₃.Unchanged x.after n) ∧
      x.copied = d₃.contentOf x.template ∧
      ∀ n ∈ x.top, ∀ i ∈ ids (x.after.treeAt n), i ∈ x.nodes := by
  obtain ⟨hgrows, hT, hnot, htext⟩ := h.contents wf hroot hscope
  have wf₃ := hgrows.wellFormed
  obtain ⟨hleaves, hchronological, heach⟩ := (keeps_expansion settings hdriver wf₃ hT
    (hgrows.mem_ids _ hroot) hnot htext s).account
  refine ⟨fun hread => ?_, hleaves.unchanged, hchronological.beside fun x hx => (heach x hx).grows,
    fun x hx => ?_⟩
  · rw [expandBlocks_of_readBlocks hread, step_expansion]
  · have hx := heach x hx
    refine ⟨hx.template_mem, fun n hn hin => ?_, fun n hn => ⟨hx.before.unchanged n hn,
      hx.after.unchanged n hn⟩, hx.copied_eq wf₃ hT, hx.top⟩
    -- The contents were there before the instance was begun.
    have hmem := hx.before.grows.mem_ids n ((hT.closed wf₃).mem_ids n hin)
    simpa [hmem] using (List.mem_filter.mp hn).2

/-- A document with a row for each item, in which a text is there only for some of them. -/
def itemRows : Document :=
  .ofTree ⟨"w:document", []⟩ (tree (.element ⟨Word.body, []⟩)
    (Word.tableOf [["{{#A}}{{?b}}x{{/}}", "{{n}}{{/A}}"]]))

theorem instances_separate_itemRows :
    let s := Scopes.ofModel (.object [("b", .bool true), ("A", .array
      [.object [("n", .string "1")], .object [("n", .string "2")]])])
    ∃ T d₃, readBlocks {} (bodyOf itemRows) ⟨itemRows, s⟩ = .ok T ⟨d₃, s⟩ ∧
      expandBlocks {} (ModelBinding.driver {}) (bodyOf itemRows) ⟨itemRows, s⟩ =
        (expansion {} (ModelBinding.driver {}) (bodyOf itemRows) T).step ⟨d₃, s⟩ ∧
      (∀ n, InContents d₃ T n → d₃.Unchanged
        (documentAfter (expandBlocks {} (ModelBinding.driver {}) (bodyOf itemRows) ⟨itemRows, s⟩)) n) ∧
      ((expansion {} (ModelBinding.driver {}) (bodyOf itemRows) T).log ⟨d₃, s⟩).Beside
        fun x y => x.nodes.Disjoint y.nodes := by
  intro s
  obtain ⟨T, w, hread⟩ := exists_of_errorOf?_eq_none
    (r := readBlocks {} (bodyOf itemRows) ⟨itemRows, s⟩) (by decide +kernel)
  obtain ⟨B, B', d₂, d₃, hstages, rfl, -⟩ := exists_stages hread
  obtain ⟨hrun, hsame, hbeside, -⟩ := instances_separate (d := itemRows) (wellFormed_ofTree ..)
    (by decide +kernel)
    (.inl (by decide +kernel)) (ModelBinding.rewritesPlaceholders {}).staysBelow hstages s
  exact ⟨T, d₃, hread, hrun hread, by rwa [hrun hread], hbeside⟩

end WordTemplate
