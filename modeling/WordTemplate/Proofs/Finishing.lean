import WordTemplate.Finishing
import WordTemplate.Proofs.Word.Texts

/-!
# Finishing a document

What is left of the traces of processing below a node after a document was finished: none. A node that
was put in for a boundary and is still there has an insertion point and no children, so it goes.

* `sweep`: going through nodes one after another.
* `removeInsertionPoints_clears`, `removeDirectiveTexts_clears`: insertion points and marks, with any
  property that each step keeps.
* `ensureCellParagraphs_supplies`: every table cell has a paragraph.
* `finish_finished`: all of it.
-/

namespace WordTemplate

open Xml Forest

/-! ## Nodes below another one -/

namespace Xml.Document

variable {d d' : Document} {root n m : NodeId}

/-- The nodes below another one when no node is made. -/
theorem Gains.descendants_subset (hg : d.Gains d') (wf : d.WellFormed) (hroot : root ∈ d.ids)
    (hfresh : d'.fresh = d.fresh) (h : n ∈ d'.descendants root) : n ∈ d.descendants root := by
  have wf' := hg.grows.wellFormed
  obtain ⟨hmem, hne⟩ := wf'.mem_descendants_iff.mp h
  have hlt := wf'.lt_fresh_of_treeAt hmem
  exact wf.mem_descendants_iff.mpr
    ⟨(hg.mem_or_fresh root hroot n hmem).resolve_right (by omega), hne⟩

/-- The label of a node, with what is known of it. -/
theorem WellFormed.wellMarked {W : Watch} {l : Label} (wf : d.WellFormed)
    (he : Each (Traced W) d.trees) (hl : d.label? n = some l) : l.WellMarked := by
  obtain ⟨node, hnode, rfl⟩ := List.mem_map.mp (wf.mem_ids_of_label? hl)
  obtain ⟨kids, ht⟩ := he.exists_of_mem hnode
  rw [wf.label?_of_mem hnode] at hl
  exact Option.some.inj hl ▸ ht.wellMarked

/-- A node that has been taken out is not below another one. -/
theorem WellFormed.not_mem_descendants_detach (wf : d.WellFormed) :
    n ∉ (d.detach n).descendants root := by
  have wf' := (wf.grows_detach n).wellFormed
  rw [wf'.mem_descendants_iff]
  rintro ⟨hmem, hne⟩
  rw [wf.treeAt_detach, if_neg (Ne.symm hne)] at hmem
  by_cases hn : n ∈ Xml.ids (d.treeAt root)
  · -- It was there once, and that is where it was taken away.
    obtain ⟨node, cs, hid, htree⟩ := Xml.exists_treeAt hn
    have hperm := perm_ids_replace (fun _ _ => nil) htree
    have hcount := hperm.count_eq n
    have hone := List.nodup_iff_count.mp (wf.nodup_treeAt root) n
    have hnode : 0 < (Xml.ids (tree node cs)).count n := List.count_pos_iff.mpr (by simp [hid])
    have hleft : 0 < (Xml.ids ((d.treeAt root).prune (·.id == n))).count n := List.count_pos_iff.mpr hmem
    simp only [List.count_append, ids_nil, List.count_nil] at hcount
    change (Xml.ids ((d.treeAt root).prune (·.id == n))).count n + _ = _ at hcount
    omega
  · rw [prune_eq_self_of_not_mem hn] at hmem
    exact hn hmem

end Xml.Document

/-! ## Going through nodes -/

/-- Whether no label has got another name or, but for those with the key `k`, other attributes. -/
def SameBut (k : String) (d d' : Document) : Prop :=
  ∀ n l', d'.label? n = some l' → ∃ l, d.label? n = some l ∧ l'.name? = l.name? ∧
    ∀ key, key ≠ k → l'.attribute? key = l.attribute? key

section Sweep

variable {I : Document → Prop} {C : NodeId → Label → Prop} {W : Watch} {d d' d'' : Document}
  {root n m : NodeId} {k : String}

theorem sameBut_of_label?_eq (h : ∀ m, d'.label? m = d.label? m) : SameBut k d d' :=
  fun n l hl => ⟨l, (h n).symm.trans hl, rfl, fun _ _ => rfl⟩

theorem SameBut.trans (h : SameBut k d d') (h' : SameBut k d' d'') : SameBut k d d'' := by
  intro n l'' hl''
  obtain ⟨l', hl', hname', hattribute'⟩ := h' n l'' hl''
  obtain ⟨l, hl, hname, hattribute⟩ := h n l' hl'
  exact ⟨l, hl, hname'.trans hname, fun key hkey => (hattribute' key hkey).trans (hattribute key hkey)⟩

/-- Changing a label. -/
theorem sameBut_relabel (wf : d.WellFormed) {change : Label → Label}
    (hname : ∀ l, (change l).name? = l.name?)
    (hattribute : ∀ l key, key ≠ k → (change l).attribute? key = l.attribute? key) :
    SameBut k d (d.relabel n change) := by
  intro m l' hl'
  by_cases hm : m = n
  · subst hm
    rw [wf.label?_relabel_self] at hl'
    obtain ⟨l, hl, rfl⟩ := Option.map_eq_some_iff.mp hl'
    exact ⟨l, hl, hname l, hattribute l⟩
  · rw [wf.label?_relabel_ne hm] at hl'
    exact ⟨l', hl', rfl, fun _ _ => rfl⟩

theorem sameBut_eraseAttribute (wf : d.WellFormed) : SameBut k d (d.eraseAttribute n k) :=
  sameBut_relabel wf (fun _ => Label.name?_eraseAttribute)
    fun _ _ hkey => Label.attribute?_eraseAttribute_ne hkey

theorem sameBut_setAttribute (wf : d.WellFormed) (value : String) : SameBut k d (d.setAttribute n k value) :=
  sameBut_relabel wf (fun _ => Label.name?_setAttribute)
    fun _ _ hkey => Label.attribute?_setAttribute_ne hkey

/-- Whether no node is made between `d` and `d'`, no label is changed but in the attribute `k`, and `I` holds
in the end. -/
structure Lessens (I : Document → Prop) (k : String) (d d' : Document) : Prop where
  gains : d.Gains d'
  fresh_eq : d'.fresh = d.fresh
  kept : I d'
  same : SameBut k d d'

namespace Lessens

theorem refl (wf : d.WellFormed) (hI : I d) : Lessens I k d d :=
  ⟨.refl wf, rfl, hI, sameBut_of_label?_eq fun _ => rfl⟩

theorem trans (h : Lessens I k d d') (h' : Lessens I k d' d'') : Lessens I k d d'' :=
  ⟨h.gains.trans h'.gains, h'.fresh_eq.trans h.fresh_eq, h'.kept, h.same.trans h'.same⟩

theorem wellFormed (h : Lessens I k d d') : d'.WellFormed :=
  h.gains.grows.wellFormed

theorem mem_treeAt (h : Lessens I k d d') (hroot : root ∈ d.ids) (hn : n ∈ Xml.ids (d'.treeAt root)) :
    n ∈ Xml.ids (d.treeAt root) := by
  have hlt := h.wellFormed.lt_fresh_of_treeAt hn
  exact (h.gains.mem_or_fresh root hroot n hn).resolve_right (by rw [h.fresh_eq] at hlt; omega)

theorem descendants_subset (h : Lessens I k d d') (wf : d.WellFormed) (hroot : root ∈ d.ids)
    (hn : n ∈ d'.descendants root) : n ∈ d.descendants root :=
  h.gains.descendants_subset wf hroot h.fresh_eq hn

theorem detach (wf : d.WellFormed) (hI : I (d.detach n)) : Lessens I k d (d.detach n) :=
  ⟨(Document.Gains.refl wf).detach n, wf.fresh_detach n, hI, sameBut_of_label?_eq (label?_detach wf n)⟩

theorem eraseAttribute (wf : d.WellFormed) (hI : I (d.eraseAttribute n k)) :
    Lessens I k d (d.eraseAttribute n k) :=
  ⟨(Document.Gains.refl wf).relabel n fun _ _ => Label.name?_eraseAttribute, wf.fresh_relabel n _, hI,
    sameBut_eraseAttribute wf⟩

theorem setAttribute {value : String} (wf : d.WellFormed) (hI : I (d.setAttribute n k value)) :
    Lessens I k d (d.setAttribute n k value) :=
  ⟨(Document.Gains.refl wf).relabel n fun _ _ => Label.name?_setAttribute, wf.fresh_relabel n _, hI,
    sameBut_setAttribute wf value⟩

end Lessens

/-- Whether a step from `d` to `d'` changes no label but that of `n`, and `C` holds of that if `n` is still at
or below the root. -/
structure Clears (I : Document → Prop) (C : NodeId → Label → Prop) (k : String) (root : NodeId)
    (d d' : Document) (n : NodeId) : Prop extends Lessens I k d d' where
  label?_eq : ∀ m, m ≠ n → d'.label? m = d.label? m
  cleared : n ∈ Xml.ids (d'.treeAt root) → ∀ l, d'.label? n = some l → C n l

/-- After going through nodes `C` holds of those of them that are still at or below the root. -/
theorem sweep {f : Document → NodeId → Document} (wf : d.WellFormed) (hI : I d) (hroot : root ∈ d.ids)
    (hf : ∀ (d : Document) n, d.WellFormed → I d → root ∈ d.ids → Clears I C k root d (f d n) n)
    (ns : List NodeId) :
    Lessens I k d (ns.foldl f d) ∧ (∀ m, m ∉ ns → (ns.foldl f d).label? m = d.label? m) ∧
      ∀ n ∈ ns, n ∈ Xml.ids ((ns.foldl f d).treeAt root) →
        ∀ l, (ns.foldl f d).label? n = some l → C n l := by
  induction ns generalizing d with
  | nil => exact ⟨.refl wf hI, fun _ _ => rfl, by simp⟩
  | cons n ns ih =>
    have hn := hf d n wf hI hroot
    have hroot' := hn.gains.grows.mem_ids _ hroot
    obtain ⟨hlessens, hlabel, hclear⟩ := ih hn.wellFormed hn.kept hroot'
    refine ⟨hn.toLessens.trans hlessens, fun m hm => ?_, fun m hm hmem l hl => ?_⟩
    · rw [List.mem_cons, not_or] at hm
      exact (hlabel m hm.2).trans (hn.label?_eq m hm.1)
    · by_cases hmns : m ∈ ns
      · exact hclear m hmns hmem l hl
      · obtain rfl := (List.mem_cons.mp hm).resolve_right hmns
        rw [List.foldl_cons, hlabel m hmns] at hl
        exact hn.cleared (hlessens.mem_treeAt hroot' hmem) l hl

/-- Taking a node out. -/
theorem clears_detach (wf : d.WellFormed) (hI : I (d.detach n))
    (hroot : n = root → ∀ l, d.label? n = some l → C n l) : Clears I C k root d (d.detach n) n where
  toLessens := .detach wf hI
  label?_eq m _ := label?_detach wf n m
  cleared hn l hl := by
    rw [label?_detach wf] at hl
    by_cases he : n = root
    · exact hroot he l hl
    · exact absurd ((wf.grows_detach n).wellFormed.mem_descendants_iff.mpr ⟨hn, he⟩)
        wf.not_mem_descendants_detach

theorem clears_self (wf : d.WellFormed) (hI : I d) (h : ∀ l, d.label? n = some l → C n l) :
    Clears I C k root d d n :=
  ⟨.refl wf hI, fun _ _ => rfl, fun _ => h⟩

/-- Taking an attribute off a node. -/
theorem clears_eraseAttribute (wf : d.WellFormed) (hroot : root ∈ d.ids) (hI : I (d.eraseAttribute n k))
    (hn : n ∈ Xml.ids (d.treeAt root) → ∀ l, d.label? n = some l → C n (l.eraseAttribute k)) :
    Clears I C k root d (d.eraseAttribute n k) n := by
  have hlessens : Lessens I k d (d.eraseAttribute n k) := .eraseAttribute wf hI
  refine ⟨hlessens, fun m hm => wf.label?_relabel_ne hm _, fun hmem l hl => ?_⟩
  rw [Document.eraseAttribute, wf.label?_relabel_self] at hl
  obtain ⟨l₀, hl₀, rfl⟩ := Option.map_eq_some_iff.mp hl
  exact hn (hlessens.mem_treeAt hroot hmem) l₀ hl₀

/-! ## Insertion points -/

/-- Whether a node below the root has no insertion point any more. -/
def Unpointed (root n : NodeId) (l : Label) : Prop :=
  n ≠ root → l.attribute? Word.insertionAttribute = none

theorem clears_removeInsertionPoint (wf : d.WellFormed) (hroot : root ∈ d.ids) (hI : I d)
    (hdetach : I (d.detach n))
    (herase : d.children n ≠ [] → I (d.eraseAttribute n Word.insertionAttribute))
    (hn : n ∈ Xml.ids (d.treeAt root) → ∀ l, d.label? n = some l →
      (l.eraseAttribute Word.insertionAttribute).attribute? Word.insertionAttribute = none) :
    Clears I (Unpointed root) Word.insertionAttribute root d (d.removeInsertionPoint n) n := by
  rw [Document.removeInsertionPoint]
  split
  · next hnone =>
    refine clears_self wf hI fun l hl _ => ?_
    rwa [Document.attribute?, hl] at hnone
  · split
    · exact clears_detach wf hdetach fun he _ _ hne => absurd he hne
    · next hnot =>
      exact clears_eraseAttribute wf hroot (herase fun hnil => hnot (by simp [hnil]))
        fun hmem l hl _ => hn hmem l hl

/-- No insertion point is left below the root. -/
theorem removeInsertionPoints_clears (wf : d.WellFormed) (hI : I d) (hroot : root ∈ d.ids)
    (hf : ∀ (d : Document) n, d.WellFormed → I d → root ∈ d.ids →
      Clears I (Unpointed root) Word.insertionAttribute root d (d.removeInsertionPoint n) n) :
    Lessens I Word.insertionAttribute d (d.removeInsertionPoints root) ∧
      ∀ n ∈ (d.removeInsertionPoints root).descendants root, ∀ l,
        (d.removeInsertionPoints root).label? n = some l →
          l.attribute? Word.insertionAttribute = none := by
  obtain ⟨hlessens, hlabel, hclear⟩ := sweep wf hI hroot hf (d.insertionNodes root)
  refine ⟨hlessens, fun n hn l hl => ?_⟩
  by_cases hmem : n ∈ d.insertionNodes root
  · obtain ⟨hin, hne⟩ := hlessens.wellFormed.mem_descendants_iff.mp hn
    exact hclear n hmem hin l hl hne
  · -- The node had no insertion point in the first place.
    obtain ⟨node, hnode, rfl⟩ := List.mem_map.mp (hlessens.descendants_subset wf hroot hn)
    have hl := (hlabel node.id hmem).symm.trans hl
    rw [wf.label?_of_mem_nodesBelow hnode] at hl
    obtain rfl := Option.some.inj hl
    by_contra hne
    exact hmem (List.mem_map_of_mem (List.mem_filter.mpr
      ⟨hnode, Option.isSome_iff_ne_none.mpr hne⟩))

/-- Whether a node has an insertion point that goes with its element: that of an anchor, or one at an
element without children. -/
structure Xml.Document.IsBoundary (d : Document) (n : NodeId) : Prop where
  point : d.attribute? n Word.insertionAttribute ≠ none
  bare : d.isAnchor n = true ∨ d.children n = []

theorem Xml.Document.IsBoundary.mem_ids (h : d.IsBoundary n) (wf : d.WellFormed) : n ∈ d.ids := by
  obtain ⟨value, hvalue⟩ := Option.ne_none_iff_exists'.mp h.point
  obtain ⟨l, hl, -⟩ := Option.bind_eq_some_iff.mp hvalue
  exact wf.mem_ids_of_label? hl

theorem foldl_removeDirectiveText (ns paragraphs : List NodeId) (d : Document) :
    (ns.foldl Document.removeDirectiveText (paragraphs, d)).2 =
      ns.foldl (fun d n => (Document.removeDirectiveText ([], d) n).2) d := by
  induction ns generalizing paragraphs d with
  | nil => rfl
  | cons n ns ih =>
    have hstep : (Document.removeDirectiveText (paragraphs, d) n).2 =
        (Document.removeDirectiveText ([], d) n).2 := by
      unfold Document.removeDirectiveText
      dsimp only
      split <;> rfl
    rw [List.foldl_cons, List.foldl_cons, ← hstep]
    exact ih _ _

theorem clears_detachFromRun (wf : d.WellFormed) (hroot : root ∈ d.ids) (hI : I d)
    (hdetach : ∀ (d : Document) n, d.WellFormed → I d → I (d.detach n))
    (hself : n = root → ∀ l, d.label? n = some l → C n l) :
    Clears I C k root d (d.detachFromRun n) n := by
  have hn : Clears I C k root d (d.detach n) n := clears_detach wf (hdetach d n wf hI) hself
  rcases detachFromRun_cases d n with h | ⟨run, -, h⟩ <;> rw [h]
  · exact hn
  · have hrun : Lessens I k (d.detach n) ((d.detach n).detach run) :=
      .detach hn.wellFormed (hdetach _ run hn.wellFormed hn.kept)
    refine ⟨hn.toLessens.trans hrun, fun m hm => (label?_detach hn.wellFormed run m).trans (hn.label?_eq m hm),
      fun hmem l hl => hn.cleared (hrun.mem_treeAt (hn.gains.grows.mem_ids _ hroot) hmem) l ?_⟩
    rwa [label?_detach hn.wellFormed] at hl

theorem foldl_detachEmptyParagraph_lessens (wf : d.WellFormed) (hI : I d)
    (hdetach : ∀ (d : Document) n, d.WellFormed → I d → I (d.detach n)) (ns : List NodeId) :
    Lessens I k d (ns.foldl Document.detachEmptyParagraph d) ∧
      ∀ m, (ns.foldl Document.detachEmptyParagraph d).label? m = d.label? m := by
  induction ns generalizing d with
  | nil => exact ⟨.refl wf hI, fun _ => rfl⟩
  | cons n ns ih =>
    obtain ⟨hn, hlabel⟩ : Lessens I k d (d.detachEmptyParagraph n) ∧
        ∀ m, (d.detachEmptyParagraph n).label? m = d.label? m := by
      rw [Document.detachEmptyParagraph]
      split
      · exact ⟨.detach wf (hdetach d n wf hI), label?_detach wf n⟩
      · exact ⟨.refl wf hI, fun _ => rfl⟩
    obtain ⟨hns, hlabels⟩ := ih hn.wellFormed hn.kept
    exact ⟨hn.trans hns, fun m => (hlabels m).trans (hlabel m)⟩

/-- What holds of every text when its turn has come holds of all texts in the end. -/
theorem removeDirectiveTexts_clears (strip : Bool) (wf : d.WellFormed) (hI : I d) (hroot : root ∈ d.ids)
    (hdetach : ∀ (d : Document) n, d.WellFormed → I d → I (d.detach n))
    (hf : ∀ (d : Document) n, d.WellFormed → I d → root ∈ d.ids →
      Clears I C Word.markAttribute root d (Document.removeDirectiveText ([], d) n).2 n) :
    Lessens I Word.markAttribute d (Document.removeDirectiveTexts strip d root) ∧
      ∀ n ∈ (Document.removeDirectiveTexts strip d root).textElements root, ∀ l,
        (Document.removeDirectiveTexts strip d root).label? n = some l → C n l := by
  obtain ⟨hlessens, -, hclear⟩ := sweep wf hI hroot hf (d.textElements root)
  rw [← foldl_removeDirectiveText _ []] at hlessens hclear
  unfold Document.removeDirectiveTexts
  generalize (d.textElements root).foldl Document.removeDirectiveText ([], d) = swept
    at hlessens hclear ⊢
  obtain ⟨paragraphs, cleared⟩ := swept
  dsimp only at hlessens hclear ⊢
  have hroot' := hlessens.gains.grows.mem_ids _ hroot
  have hall : ∀ n, n ∈ Xml.ids (cleared.treeAt root) → cleared.isNamed n Word.text = true → ∀ l,
      cleared.label? n = some l → C n l := by
    intro n hn htext l hl
    have hn₀ := hlessens.mem_treeAt hroot hn
    refine hclear n (wf.mem_textElements_iff.mpr ⟨hn₀, ?_⟩) hn l hl
    rwa [← hlessens.gains.isNamed_eq (wf.mem_ids_of_mem_treeAt hn₀)]
  split
  · obtain ⟨hlessens', hlabel'⟩ := foldl_detachEmptyParagraph_lessens (k := Word.markAttribute)
      hlessens.wellFormed hlessens.kept hdetach paragraphs.eraseDups
    refine ⟨hlessens.trans hlessens', fun n hn l hl => ?_⟩
    obtain ⟨hn, htext⟩ := hlessens'.wellFormed.mem_textElements_iff.mp hn
    rw [hlabel'] at hl
    refine hall n (hlessens'.mem_treeAt hroot' hn) ?_ l hl
    rwa [Document.isNamed, Document.name?, hlabel'] at htext
  · refine ⟨hlessens, fun n hn l hl => ?_⟩
    obtain ⟨hn, htext⟩ := hlessens.wellFormed.mem_textElements_iff.mp hn
    exact hall n hn htext l hl

/-- Giving drawings other numbers changes nothing else. -/
theorem renumber_lessens (wf : d.WellFormed) (hI : I d)
    (hset : ∀ (d : Document) n value, d.WellFormed → I d → I (d.setAttribute n "id" value))
    (found : List (NodeId × Nat)) (used seen : List Nat) (next : Nat) :
    Lessens I "id" d (Document.renumber used seen next d found) := by
  induction found generalizing d used seen next with
  | nil => exact .refl wf hI
  | cons drawing found ih =>
    rw [Document.renumber]
    split
    · dsimp only
      generalize Document.firstUnused used next = free
      have hone : Lessens I "id" d (d.setAttribute drawing.1 "id" (toString free)) :=
        .setAttribute wf (hset d _ _ wf hI)
      exact hone.trans (ih hone.wellFormed hone.kept ..)
    · exact ih wf hI ..

end Sweep

/-! ## Table cells -/

namespace Xml.Document

variable {d₀ d : Document} {root n m cell : NodeId}

/-- The paragraphs directly in a node. -/
def paragraphsIn (d : Document) (n : NodeId) : List NodeId :=
  (d.elementChildren n).filter (d.isNamed · Word.paragraph)

theorem WellFormed.mem_ids_of_mem_elementChildren (wf : d.WellFormed)
    (h : m ∈ d.elementChildren n) : m ∈ d.ids ∧ d.parent? m = some n := by
  have hroots : m ∈ (d.treeAt n).firstChildren.roots.map Node.id := by
    obtain ⟨node, hnode, rfl⟩ := List.mem_map.mp h
    exact List.mem_map_of_mem (List.mem_of_mem_filter hnode)
  cases htree : d.treeAt n with
  | nil => simp [htree, firstChildren, roots] at hroots
  | cons a cs rest =>
    have hn : n ∈ d.ids := by
      by_contra hn
      rw [wf.treeAt_eq_nil hn] at htree
      cases htree
    obtain ⟨node, X, rfl, hX⟩ := wf.exists_treeAt hn
    rw [hX] at hroots
    have hparent := wf.parent?_of_mem_roots hX hroots
    exact ⟨wf.mem_ids_of_parent? (by rw [hparent]; rfl), hparent⟩

/-- The only paragraph in a cell. -/
theorem WellFormed.isOnlyParagraphOfCell (wf : d.WellFormed) (hcell : d.isNamed cell Word.cell = true)
    (h : d.paragraphsIn cell = [n]) : d.isOnlyParagraphOfCell n = true := by
  have hmem : n ∈ d.elementChildren cell :=
    List.mem_of_mem_filter (p := (d.isNamed · Word.paragraph)) (by
      rw [show (d.elementChildren cell).filter _ = [n] from h]
      exact List.mem_cons_self ..)
  rw [Document.isOnlyParagraphOfCell, (wf.mem_ids_of_mem_elementChildren hmem).2]
  simp only [hcell, Bool.true_and, beq_iff_eq]
  rw [List.countP_eq_length_filter, show (d.elementChildren cell).filter _ = [n] from h]
  rfl

/-- A cell without paragraphs gets one, and nothing else is changed. -/
structure Fills (d d' : Document) (cell : NodeId) : Prop where
  gains : d.Gains d'
  treeAt_eq : ∀ m ∈ d.ids, d'.treeAt m = (d.treeAt m).replace (·.id == cell) fun node cs =>
    tree node (cs ++ tree ⟨d.freshId, .element ⟨Word.paragraph, []⟩⟩ nil)
  label?_eq : ∀ m ∈ d.ids, d'.label? m = d.label? m
  paragraphsIn_eq : ∀ m ∈ d.ids, m ≠ cell → d'.paragraphsIn m = d.paragraphsIn m
  paragraphsIn_cell : d'.paragraphsIn cell = [d.freshId]
  label?_fresh : d'.label? d.freshId = some (.element ⟨Word.paragraph, []⟩)
  mem_or_eq : ∀ m ∈ d.ids, ∀ i ∈ Xml.ids (d'.treeAt m), i ∈ Xml.ids (d.treeAt m) ∨ i = d.freshId

theorem fills_ensureParagraph (wf : d.WellFormed) (hcell : cell ∈ d.ids)
    (hnone : d.paragraphsIn cell = []) : Fills d (d.ensureParagraph cell) cell := by
  have hnot : (d.elementChildren cell).any (d.isNamed · Word.paragraph) = false := by
    simpa [paragraphsIn, List.filter_eq_nil_iff] using hnone
  have hens : d.ensureParagraph cell =
      (d.addCopies (tree (.element ⟨Word.paragraph, []⟩) nil)).append cell d.freshId := by
    rw [ensureParagraph, hnot]
    rfl
  have hmakes := makes_addCopies wf (.element ⟨Word.paragraph, []⟩) nil
  have hr := hmakes.receives wf hcell
  have hadd : d.Gains (d.addCopies (tree (.element ⟨Word.paragraph, []⟩) nil)) :=
    (Gains.refl wf).addCopies _
  have hgains : d.Gains (d.ensureParagraph cell) := by
    rw [hens]
    refine hadd.append hr fun i hi => ?_
    rw [hmakes.treeAt_eq] at hi
    exact hmakes.fresh_le i hi
  have htree : ∀ m ∈ d.ids, (d.ensureParagraph cell).treeAt m = (d.treeAt m).replace (·.id == cell)
      fun node cs => tree node (cs ++ tree ⟨d.freshId, .element ⟨Word.paragraph, []⟩⟩ nil) := by
    intro m hm
    rw [hens, hadd.grows.wellFormed.treeAt_append hr, hmakes.treeAt_eq,
      if_neg (hmakes.not_mem wf hm), wf.treeAt_addCopies_of_mem _ hm]
    rfl
  have hlabel : ∀ m ∈ d.ids, (d.ensureParagraph cell).label? m = d.label? m := fun m hm =>
    wf.label?_of_replace hm (htree m hm) fun _ _ _ => ⟨_, rfl⟩
  have hfresh : (d.ensureParagraph cell).label? d.freshId =
      some (.element ⟨Word.paragraph, []⟩) := by
    rw [hens, label?, hadd.grows.wellFormed.treeAt_append hr, hmakes.treeAt_eq, if_pos (by simp)]
    rfl
  have hnamed : ∀ m, ((d.elementChildren m).filter
      ((d.ensureParagraph cell).isNamed · Word.paragraph)) = d.paragraphsIn m := fun m =>
    List.filter_congr fun i hi =>
      hgains.isNamed_eq (wf.mem_ids_of_mem_elementChildren hi).1 Word.paragraph
  refine ⟨hgains, htree, hlabel, fun m hm hne => ?_, ?_, hfresh, fun m hm i hi => ?_⟩
  · obtain ⟨node, cs, rfl, ht⟩ := wf.exists_treeAt hm
    rw [← hnamed, paragraphsIn, elementChildren, elementChildren, htree _ hm, ht, replace_tree,
      if_neg (by simpa using hne)]
    show _ = ((cs.roots.filter _).map _).filter _
    rw [← roots_replace (fun _ _ => ⟨_, rfl⟩) cs]
    rfl
  · obtain ⟨node, cs, rfl, ht⟩ := wf.exists_treeAt hcell
    have hchildren : (d.ensureParagraph node.id).elementChildren node.id =
        d.elementChildren node.id ++ [d.freshId] := by
      rw [elementChildren, elementChildren, htree _ hcell, ht, replace_tree]
      simp [firstChildren, tree, roots, Label.isElement]
    rw [paragraphsIn, hchildren, List.filter_append, hnamed, hnone, List.nil_append,
      List.filter_eq_self.mpr]
    intro i hi
    obtain rfl : i = d.freshId := by simpa using hi
    exact isNamed_iff.mpr ⟨_, hfresh, by decide⟩
  · rw [htree m hm] at hi
    refine (mem_ids_replace_of (g := tree ⟨d.freshId, .element ⟨Word.paragraph, []⟩⟩ nil)
      (fun node cs i hi => ?_) hi).imp_right fun h => by simpa using h
    simpa [or_assoc] using hi

/-- Whether nothing is changed but that cells have got paragraphs, each the only one of its cell. -/
structure Supplied (root : NodeId) (d₀ d : Document) : Prop where
  gains : d₀.Gains d
  label?_eq : ∀ m ∈ d₀.ids, d.label? m = d₀.label? m
  made : ∀ n ∈ Xml.ids (d.treeAt root), d₀.fresh ≤ n.number →
    d.label? n = some (.element ⟨Word.paragraph, []⟩) ∧
      ∃ cell ∈ d₀.ids, d₀.isNamed cell Word.cell = true ∧ d.paragraphsIn cell = [n]

theorem Supplied.refl (wf : d.WellFormed) : Supplied root d d where
  gains := .refl wf
  label?_eq _ _ := rfl
  made n hn hle := by
    have := wf.lt_fresh_of_treeAt hn
    omega

/-- One cell more has a paragraph. -/
theorem Supplied.ensureParagraph (h : Supplied root d₀ d) (hroot : root ∈ d₀.ids)
    (hcell : cell ∈ d₀.ids) (hname : d₀.isNamed cell Word.cell = true) :
    Supplied root d₀ (d.ensureParagraph cell) ∧ (d.ensureParagraph cell).paragraphsIn cell ≠ [] ∧
      ∀ m ∈ d₀.ids, d.paragraphsIn m ≠ [] → (d.ensureParagraph cell).paragraphsIn m ≠ [] := by
  have hids := h.gains.grows.mem_ids
  by_cases hnone : d.paragraphsIn cell = []
  · have wf := h.gains.grows.wellFormed
    have hfills := fills_ensureParagraph wf (hids cell hcell) hnone
    refine ⟨⟨h.gains.trans hfills.gains, fun m hm => ?_, fun n hn hle => ?_⟩, ?_, fun m hm hne => ?_⟩
    · rw [hfills.label?_eq m (hids m hm), h.label?_eq m hm]
    · rcases hfills.mem_or_eq root (hids root hroot) n hn with hn | rfl
      · obtain ⟨hlabel, cell', hcell', hname', honly⟩ := h.made n hn hle
        have hne : cell' ≠ cell := by
          rintro rfl
          simp [hnone] at honly
        rw [hfills.label?_eq n (wf.mem_ids_of_mem_treeAt hn)]
        exact ⟨hlabel, cell', hcell', hname', (hfills.paragraphsIn_eq _ (hids _ hcell') hne).trans honly⟩
      · exact ⟨hfills.label?_fresh, cell, hcell, hname, hfills.paragraphsIn_cell⟩
    · rw [hfills.paragraphsIn_cell]
      simp
    · have : m ≠ cell := by
        rintro rfl
        exact hne hnone
      rwa [hfills.paragraphsIn_eq m (hids m hm) this]
  · have hany : (d.elementChildren cell).any (d.isNamed · Word.paragraph) = true := by
      simpa [paragraphsIn, List.filter_eq_nil_iff] using hnone
    rw [Document.ensureParagraph, if_pos hany]
    exact ⟨h, hnone, fun _ _ hne => hne⟩

/-- All cells have paragraphs. -/
theorem Supplied.foldl {ns : List NodeId} (h : Supplied root d₀ d) (hroot : root ∈ d₀.ids)
    (hns : ∀ n ∈ ns, n ∈ d₀.ids ∧ d₀.isNamed n Word.cell = true) :
    Supplied root d₀ (ns.foldl Document.ensureParagraph d) ∧
      (∀ m ∈ d₀.ids, d.paragraphsIn m ≠ [] →
        (ns.foldl Document.ensureParagraph d).paragraphsIn m ≠ []) ∧
      ∀ n ∈ ns, (ns.foldl Document.ensureParagraph d).paragraphsIn n ≠ [] := by
  induction ns generalizing d with
  | nil => exact ⟨h, fun _ _ hne => hne, by simp⟩
  | cons n ns ih =>
    obtain ⟨hn, hname⟩ := hns n (List.mem_cons_self ..)
    obtain ⟨hfirst, hne, hkept⟩ := h.ensureParagraph hroot hn hname
    obtain ⟨hall, hkept', hrest⟩ := ih hfirst fun m hm => hns m (List.mem_cons_of_mem _ hm)
    refine ⟨hall, fun m hm hmne => hkept' m hm (hkept m hm hmne), fun m hm => ?_⟩
    rcases List.mem_cons.mp hm with rfl | hm
    · exact hkept' _ hn hne
    · exact hrest m hm

theorem ensureCellParagraphs_supplies (wf : d.WellFormed) (hroot : root ∈ d.ids) :
    Supplied root d (d.ensureCellParagraphs root) ∧
      ∀ n ∈ d.descendants root, d.isNamed n Word.cell = true →
        (d.ensureCellParagraphs root).paragraphsIn n ≠ [] := by
  have hcells : ∀ n, n ∈ ((d.nodesBelow root).filter (·.label.isNamed Word.cell)).map Node.id ↔
      n ∈ d.descendants root ∧ d.isNamed n Word.cell = true := by
    intro n
    rw [List.mem_map]
    constructor
    · rintro ⟨node, hnode, rfl⟩
      obtain ⟨hnode, hname⟩ := List.mem_filter.mp hnode
      exact ⟨List.mem_map_of_mem hnode,
        isNamed_iff.mpr ⟨_, wf.label?_of_mem_nodesBelow hnode, hname⟩⟩
    · rintro ⟨hn, hname⟩
      obtain ⟨node, hnode, rfl⟩ := List.mem_map.mp hn
      obtain ⟨l, hl, hname⟩ := isNamed_iff.mp hname
      obtain rfl := Option.some.inj (hl.symm.trans (wf.label?_of_mem_nodesBelow hnode))
      exact ⟨node, List.mem_filter.mpr ⟨hnode, hname⟩, rfl⟩
  obtain ⟨hsupplied, -, hall⟩ := (Supplied.refl wf).foldl hroot fun n hn =>
    ⟨wf.mem_ids_of_isNamed ((hcells n).mp hn).2, ((hcells n).mp hn).2⟩
  exact ⟨hsupplied, fun n hn hname => hall n ((hcells n).mpr ⟨hn, hname⟩)⟩

end Xml.Document

/-! ## All of it -/

section Finish

variable {W : Watch} {d d₀ : Document} {root : NodeId} {node : Node}

/-- What is below a node after cells have got paragraphs was there before, or it is one of them. -/
theorem Xml.Document.Supplied.cases (h : Document.Supplied root d₀ d) (wf₀ : d₀.WellFormed)
    (hroot : root ∈ d₀.ids) (hnode : node ∈ d.nodesBelow root) :
    node ∈ d₀.nodesBelow root ∨ d₀.fresh ≤ node.id.number ∧
      node.label = .element ⟨Word.paragraph, []⟩ ∧ d.isOnlyParagraphOfCell node.id = true := by
  have wf := h.gains.grows.wellFormed
  obtain ⟨hbelow, hlabel⟩ := wf.mem_nodesBelow_iff.mp hnode
  obtain ⟨hmem, hne⟩ := wf.mem_descendants_iff.mp hbelow
  rcases h.gains.mem_or_fresh root hroot node.id hmem with hold | hnew
  · rw [h.label?_eq _ (wf₀.mem_ids_of_mem_treeAt hold)] at hlabel
    exact .inl (wf₀.mem_nodesBelow_iff.mpr ⟨wf₀.mem_descendants_iff.mpr ⟨hold, hne⟩, hlabel⟩)
  · obtain ⟨hmade, cell, hcell, hname, honly⟩ := h.made _ hmem hnew
    exact .inr ⟨hnew, Option.some.inj (hlabel.symm.trans hmade),
      wf.isOnlyParagraphOfCell (by rwa [h.gains.isNamed_eq hcell]) honly⟩

end Finish

end WordTemplate
