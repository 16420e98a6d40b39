import WordTemplate.Finishing
import WordTemplate.Proofs.Word.Retouching
import WordTemplate.Proofs.Word.Trimming
import WordTemplate.Proofs.Xml.Navigation

/-!
# The way to a table

Cleaning up takes texts, runs without content and empty paragraphs out. None of these is on the way from a table
up to the scope, as what is on this way has the table in it. So the table stays where it is, and with it all of
its rows.

* `upright_of_isBelow`: the way from a table.
* `Upright.not_empty`: a paragraph on the way is not empty.
* `cleaning_upright`: the steps of the cleanup.
-/

namespace WordTemplate

open Xml Forest Xml.Document

variable {d d' : Document} {root n c p T : NodeId} {S : NodeId → Prop}

/-- Whether `n` is an element that is neither a text nor formatting. -/
def Xml.Document.IsSolid (d : Document) (n : NodeId) : Prop :=
  ∃ name, d.name? n = some name ∧ Xml.isProperty name = false ∧ name ≠ Word.text

/-- The way from the table `T` up to `root`: `S` are the nodes on it, without `root`. They are solid and bear no
insertion points. -/
structure Upright (S : NodeId → Prop) (root T : NodeId) (d : Document) : Prop where
  wellFormed : d.WellFormed
  table : d.isNamed T Word.table = true
  below : d.IsBelow T root
  start : S T
  not_text : d.isNamed root Word.text = false
  solid : ∀ n, S n → d.IsSolid n
  plain : ∀ n, S n → d.attribute? n Word.insertionAttribute = none
  parent : ∀ n, S n → ∃ p, d.parent? n = some p ∧ (p = root ∨ S p)
  child : ∀ n, S n → n = T ∨ ∃ c, S c ∧ d.parent? c = some n

theorem Xml.Document.IsSolid.mem_ids (h : d.IsSolid n) (wf : d.WellFormed) : n ∈ d.ids := by
  by_contra hn
  obtain ⟨name, hname, -⟩ := h
  rw [name?, wf.label?_eq_none hn] at hname
  cases hname

theorem Xml.Document.IsSolid.exists_tag (h : d.IsSolid n) : ∃ tag, d.label? n = some (.element tag) ∧
    Xml.isProperty tag.name = false ∧ tag.name ≠ Word.text := by
  obtain ⟨name, hname, hproperty, htext⟩ := h
  rw [name?, Option.bind_eq_some_iff] at hname
  obtain ⟨l, hl, hname⟩ := hname
  cases l with
  | element tag =>
    obtain rfl : tag.name = name := Option.some.inj hname
    exact ⟨tag, hl, hproperty, htext⟩
  | text content => cases hname

/-- The nodes above a table and below `root` are a way between them. -/
theorem upright_of_isBelow (wf : d.WellFormed) (hT : d.isNamed T Word.table = true) (hbelow : d.IsBelow T root)
    (hroot : d.isNamed root Word.text = false)
    (hsolid : ∀ n, (n = T ∨ d.IsBelow T n) → d.IsBelow n root → d.IsSolid n)
    (hplain : ∀ n, d.attribute? n Word.insertionAttribute = none) :
    Upright (fun n => (n = T ∨ d.IsBelow T n) ∧ d.IsBelow n root) root T d where
  wellFormed := wf
  table := hT
  below := hbelow
  start := ⟨.inl rfl, hbelow⟩
  not_text := hroot
  solid n hn := hsolid n hn.1 hn.2
  plain n _ := hplain n
  parent n hn := by
    obtain ⟨hT, hroot⟩ := hn
    obtain ⟨p, hp, hrest⟩ := Relation.TransGen.head'_iff.mp hroot
    refine ⟨p, hp, ?_⟩
    rcases Relation.reflTransGen_iff_eq_or_transGen.mp hrest with he | hbelow
    · exact .inl he.symm
    · refine .inr ⟨.inr ?_, hbelow⟩
      rcases hT with rfl | hT
      · exact .single hp
      · exact .tail hT hp
  child n hn := by
    obtain ⟨rfl | hT, hroot⟩ := hn
    · exact .inl rfl
    · obtain ⟨c, hc, hp⟩ := Relation.TransGen.tail'_iff.mp hT
      refine .inr ⟨c, ⟨?_, .head hp hroot⟩, hp⟩
      rcases Relation.reflTransGen_iff_eq_or_transGen.mp hc with he | hbelow
      · exact .inl he
      · exact .inr hbelow

namespace Upright

variable (h : Upright S root T d)
include h

theorem mem_ids (hn : S n) : n ∈ d.ids :=
  (h.solid n hn).mem_ids h.wellFormed

theorem root_mem_ids : root ∈ d.ids := by
  obtain ⟨p, -, hp⟩ := Relation.TransGen.tail'_iff.mp h.below
  exact h.wellFormed.mem_ids_of_children (h.wellFormed.parent?_eq_some_iff.mp hp)

/-- A change that keeps the names and places of the nodes on the way keeps the way. -/
theorem congr (wf : d'.WellFormed) (hname : ∀ n, S n ∨ n = root → d'.name? n = d.name? n)
    (hparent : ∀ n, S n → d'.parent? n = d.parent? n)
    (hattribute : ∀ n, S n → d'.attribute? n Word.insertionAttribute = none) : Upright S root T d' where
  wellFormed := wf
  table := by
    rw [isNamed, hname T (.inl h.start)]
    exact h.table
  below := by
    -- Every step of the way starts on it.
    have key : ∀ n, d.IsBelow n root → S n → d'.IsBelow n root := fun n hn => by
      induction hn using Relation.TransGen.head_induction_on with
      | single hp => exact fun hS => .single ((hparent _ hS).trans hp)
      | @head n p hp hrest ih =>
        intro hS
        obtain ⟨q, hq, hon⟩ := h.parent n hS
        obtain rfl : q = p := Option.some.inj (hq.symm.trans hp)
        rcases hon with rfl | hon
        · exact absurd hrest (h.wellFormed.not_isBelow_self _)
        · exact .head ((hparent n hS).trans hp) (ih hon)
    exact key T h.below h.start
  start := h.start
  not_text := by
    rw [isNamed, hname root (.inr rfl)]
    exact h.not_text
  solid n hn := by
    rw [IsSolid, hname n (.inl hn)]
    exact h.solid n hn
  plain := hattribute
  parent n hn := by
    rw [hparent n hn]
    exact h.parent n hn
  child n hn := (h.child n hn).imp_right fun ⟨c, hc, hp⟩ => ⟨c, hc, (hparent c hc).trans hp⟩

theorem retouches (hd : d.Retouches (¬ S ·) d') : Upright S root T d' := by
  refine h.congr hd.grows.wellFormed (fun n hn => hd.name?_eq n (hn.elim h.mem_ids fun he => he ▸ h.root_mem_ids))
    (fun n hn => (hd.parent?_eq n (h.mem_ids hn)).resolve_right fun hno => hno.1 hn)
    fun n hn => (hd.attribute?_eq n).trans (h.plain n hn)

/-- No text is on the way, so nothing on it is lost with what is in a text. -/
theorem textsLoose : d.TextsLoose (¬ S ·) where
  wellFormed := h.wellFormed
  of_mem p m hp hm hS := by
    obtain ⟨q, hq, hon⟩ := h.parent m hS
    obtain rfl : q = p := Option.some.inj (hq.symm.trans (h.wellFormed.parent?_eq_some_iff.mpr hm))
    rcases hon with rfl | hon
    · rw [h.not_text] at hp
      cases hp
    · obtain ⟨name, hname, -, hne⟩ := h.solid q hon
      rw [isNamed, hname, beq_iff_eq, Option.some.injEq] at hp
      exact hne hp

/-- A run on the way has content. -/
theorem hasContent (hn : S n) (hrun : d.isNamed n Word.run = true) : d.hasContent n = true := by
  rcases h.child n hn with rfl | ⟨c, hc, hp⟩
  · have hnot : d.isNamed n Word.run = false := isNamed_eq_false_of_ne h.table (by decide)
    rw [hrun] at hnot
    cases hnot
  · rw [h.wellFormed.hasContent_eq, List.any_eq_true]
    refine ⟨c, h.wellFormed.parent?_eq_some_iff.mp hp, ?_⟩
    obtain ⟨tag, hl, hproperty, -⟩ := (h.solid c hc).exists_tag
    simp [isContent, hl, Label.isContent, hproperty]

end Upright

/-! ## Empty paragraphs -/

theorem Word.isBlankNode_of_allBlank {blankRun : Forest Node → Bool} {f l as r : Forest Node} {a : Node}
    (h : Word.allBlank blankRun f = true) (hf : f = l ++ cons a as r) :
    Word.isBlankNode blankRun a.label as = true := by
  subst hf
  induction l with
  | nil => exact (Bool.and_eq_true _ _ ▸ h).1
  | cons b bs l _ ih => exact ih (Bool.and_eq_true _ _ ▸ h).2

/-- Of what is neither a text nor formatting only runs are blank. -/
theorem Word.of_isBlankNode {blankRun : Forest Node → Bool} {tag : Element} {cs : Forest Node}
    (h : Word.isBlankNode blankRun (.element tag) cs = true) (hproperty : Xml.isProperty tag.name = false)
    (htext : tag.name ≠ Word.text) : tag.name = Word.run ∧ blankRun cs = true := by
  rw [Word.isBlankNode, hproperty, if_neg Bool.false_ne_true, if_neg htext] at h
  split at h
  · cases h
  · rwa [Bool.and_eq_true, beq_iff_eq] at h

namespace Upright

variable (h : Upright S root T d)
include h

/-- Where a node on the way hangs. -/
theorem exists_spot {f : Forest Node} {q : Node} (hn : S n) (hp : d.parent? n = some p) (ht : d.treeAt p = tree q f) :
    ∃ l tag as r, f = l ++ cons ⟨n, .element tag⟩ as r ∧ d.treeAt n = tree ⟨n, .element tag⟩ as ∧
      Xml.isProperty tag.name = false ∧ tag.name ≠ Word.text := by
  have wf := h.wellFormed
  have hmem := wf.parent?_eq_some_iff.mp hp
  rw [children_of_tree ht, List.mem_map] at hmem
  obtain ⟨a, ha, rfl⟩ := hmem
  obtain ⟨l, as, r, rfl⟩ := exists_of_mem_roots ha
  have hspot : d.treeAt p = wrap [⟨nil, q, nil⟩] (l ++ cons a as r) := ht
  have htree : d.treeAt a.id = tree a as := wf.treeAt_of_spot hspot
  obtain ⟨tag, hl, hsolid⟩ := (h.solid a.id hn).exists_tag
  rw [(wf.label?_of_tree htree).1, Option.some.injEq] at hl
  obtain ⟨i, label⟩ := a
  obtain rfl : label = .element tag := hl
  exact ⟨l, tag, as, r, rfl, htree, hsolid⟩

/-- A paragraph on the way is not empty. -/
theorem not_empty (hn : S n) (hname : d.isNamed n Word.paragraph = true) : d.isParagraphEmpty n = false := by
  have wf := h.wellFormed
  rw [← Bool.not_eq_true]
  intro hempty
  rcases h.child n hn with rfl | ⟨c, hc, hp⟩
  · rw [isNamed_eq_false_of_ne h.table (by decide)] at hname
    cases hname
  obtain ⟨q, f, -, ht⟩ := wf.exists_treeAt (h.mem_ids hn)
  rw [isParagraphEmpty, ht] at hempty
  obtain ⟨l, tag, as, r, hf, htree, hproperty, htext⟩ := h.exists_spot hc hp ht
  obtain ⟨hrun, hblank⟩ := Word.of_isBlankNode (Word.isBlankNode_of_allBlank hempty hf) hproperty htext
  -- The next node on the way is in a run, so it is not blank even if it is a run itself.
  rcases h.child c hc with rfl | ⟨c', hc', hp'⟩
  · have htable := h.table
    rw [isNamed_of_label? (wf.label?_of_tree htree).1] at htable
    have he : some tag.name = some Word.table := beq_iff_eq.mp htable
    rw [hrun] at he
    exact absurd he (by decide)
  · obtain ⟨l', tag', as', r', hf', -, hproperty', htext'⟩ := h.exists_spot hc' hp' htree
    exact Bool.false_ne_true (Word.of_isBlankNode (Word.isBlankNode_of_allBlank hblank hf') hproperty' htext').2

/-! ## Cleaning up -/

theorem detachEmptyParagraph (hname : d.isNamed p Word.paragraph = true) :
    d.Retouches (¬ S ·) (d.detachEmptyParagraph p) := by
  have hstart : d.Retouches (¬ S ·) d := .refl h.wellFormed
  unfold Document.detachEmptyParagraph
  split
  · next hempty =>
    refine hstart.detach (offGrid_of_isNamed hname (by decide) (by decide)) fun hS => ?_
    rw [h.not_empty hS hname] at hempty
    cases hempty
  · exact hstart

theorem detachFromRun (hname : d.isNamed n Word.text = true) : d.Retouches (¬ S ·) (d.detachFromRun n) := by
  have hstart : d.Retouches (¬ S ·) d := .refl h.wellFormed
  have hn : ¬ S n := fun hS => by
    obtain ⟨name, hname', -, hne⟩ := h.solid n hS
    rw [isNamed, hname', beq_iff_eq, Option.some.injEq] at hname
    exact hne hname
  have hout := h.retouches (hstart.detach (offGrid_of_text hname) hn)
  refine hstart.detachFromRun (offGrid_of_text hname) hn fun run hrun hempty hS => ?_
  rw [hout.hasContent hS hrun] at hempty
  cases hempty

end Upright

/-- What is done at texts, drawings and cells leaves alone what is on the way. -/
theorem cleaning_upright (S : NodeId → Prop) (root T : NodeId) :
    Cleaning (Upright S root T) (fun name d n => d.isNamed n name = true) (Retouches (¬ S ·)) where
  refl h := .refl h.wellFormed
  trans h h' := h.trans h'
  ready_kept h h' := h.retouches h'
  spot_kept h h' hn := (h'.isNamed_eq (h.wellFormed.mem_ids_of_isNamed hn) _).trans hn
  spot_paragraph _ hp := by simpa using List.find?_some hp
  eraseMark h hn := Retouches.eraseAttribute (.refl h.wellFormed) (offGrid_of_text hn) Word.markAttribute (by decide)
  detachFromRun h hn := h.detachFromRun hn
  setNumber h hn number := Retouches.setAttribute (.refl h.wellFormed) (offGrid_of_isNamed hn (by decide) (by decide))
    "id" (by decide) number
  ensureParagraph {d cell} h hcell := by
    have hstart : d.Retouches (¬ S ·) d := .refl h.wellFormed
    unfold ensureParagraph
    split
    · exact hstart
    · have hmakes : d.Makes (d.createElement Word.paragraph).2 d.freshId _ :=
        makes_addCopies h.wellFormed (.element ⟨Word.paragraph, []⟩) .nil
      have hmade := hstart.create (l := .element ⟨Word.paragraph, []⟩) rfl
      have hcell' := (hmade.isNamed_eq (h.wellFormed.mem_ids_of_isNamed hcell) _).trans hcell
      exact hmade.append (hmakes.receives h.wellFormed (h.wellFormed.mem_ids_of_isNamed hcell))
        (hstart.not_mem_of_makes hmakes) (offGrid_of_isNamed (isNamed_freshId h.wellFormed Word.paragraph)
          (by decide) (by decide)) (isNamed_eq_false_of_ne hcell' (by decide))

end WordTemplate
