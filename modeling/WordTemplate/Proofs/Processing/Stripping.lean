import WordTemplate.Proofs.Processing.Checking
import WordTemplate.Proofs.Processing.Flattening
import WordTemplate.Proofs.Xml.Retouching

/-!
# Stripping empty paragraphs

When the texts of directives are taken away at the end, stripping makes no difference but that some
paragraphs are not there any more. That does not hold of processing as a whole: an element at the end
of a block is taken for an empty row that was put in there if stripping has left it without children.
But nothing that is seen is lost: outside of tables the processed text is the same up to blanks.

* `stripped_removeDirectiveTexts`: taking away the texts of directives, with stripping and without.
* `Displays.finish_visible`: what is seen of a finished document.
* `visible_renderedText?`, `visible_renderedText?_strip`: what is seen of a processed one.
-/

namespace WordTemplate

open Xml Forest Binding

/-! ## Forests without some of their trees -/

namespace Forest

/-- Whether the second forest is the first one without some trees whose values pass a test. -/
inductive Stripped {α : Type} (p : α → Bool) : Forest α → Forest α → Prop
  | nil : Stripped p nil nil
  | keep {a : α} {cs cs' rest rest' : Forest α} : Stripped p cs cs' → Stripped p rest rest' →
      Stripped p (cons a cs rest) (cons a cs' rest')
  | drop {a : α} {cs rest rest' : Forest α} : p a = true → Stripped p rest rest' →
      Stripped p (cons a cs rest) rest'

variable {α : Type} {p : α → Bool} {f g h : Forest α}

theorem Stripped.refl (f : Forest α) : Stripped p f f := by
  induction f with
  | nil => exact .nil
  | cons a cs rest ihc ihr => exact ihc.keep ihr

theorem Stripped.trans (hfg : Stripped p f g) (hgh : Stripped p g h) : Stripped p f h := by
  induction hfg generalizing h with
  | nil => exact hgh
  | keep _ _ ihc ihr =>
    cases hgh with
    | keep hcs hrest => exact (ihc hcs).keep (ihr hrest)
    | drop ha hrest => exact .drop ha (ihr hrest)
  | drop ha _ ih => exact .drop ha (ih hgh)

/-- The other values at the top are all there. -/
theorem Stripped.roots_eq (hfg : Stripped p f g) :
    g.roots.filter (!p ·) = f.roots.filter (!p ·) := by
  induction hfg with
  | nil => rfl
  | keep _ _ _ ihr => simp only [roots, List.filter_cons, ihr]
  | drop ha _ ih => simp [roots, ha, ih]

end Forest

/-! ## Paragraphs from which texts of directives were taken -/

section Stripping

variable {d d' : Document} {root n : NodeId}

/-- Taking out a paragraph. -/
theorem stripped_prune {f : Forest Node}
    (h : ∀ a ∈ f.toList, a.id = n → a.label.isNamed Word.paragraph = true) :
    Stripped (·.isNamed Word.paragraph) (labels f) (labels (f.prune (·.id == n))) := by
  induction f with
  | nil => exact .nil
  | cons a cs rest ihc ihr =>
    simp only [toList, List.mem_cons, List.mem_append] at h
    rw [prune, replace_cons]
    by_cases hid : a.id = n
    · rw [if_pos (by simpa using hid)]
      exact .drop (h a (.inl rfl) hid) (.refl _)
    · rw [if_neg (by simpa using hid)]
      split
      · exact (ihc fun b hb => h b (.inr (.inl hb))).keep (.refl _)
      · exact (Stripped.refl _).keep (ihr fun b hb => h b (.inr (.inr hb)))

theorem stripped_detachEmptyParagraph (wf : d.WellFormed) (hn : d.isNamed n Word.paragraph = true) :
    Stripped (·.isNamed Word.paragraph) (d.labelsAt root)
      ((d.detachEmptyParagraph n).labelsAt root) := by
  rw [Document.detachEmptyParagraph]
  split
  · rw [Document.labelsAt, Document.labelsAt, wf.treeAt_detach]
    split
    · next he => exact he ▸ .refl _
    · refine stripped_prune fun a ha hid => ?_
      obtain ⟨l, hl, hname⟩ := Document.isNamed_iff.mp hn
      rw [← hid, wf.label?_of_mem_treeAt ha] at hl
      exact Option.some.inj hl ▸ hname
  · exact .refl _

/-- Whether trees have only lost nodes, and no node has been made. -/
structure Xml.Document.Loses (d d' : Document) : Prop where
  gains : d.Gains d'
  fresh_eq : d'.fresh = d.fresh

namespace Xml.Document.Loses

variable {m : NodeId}

theorem refl (wf : d.WellFormed) : d.Loses d :=
  ⟨.refl wf, rfl⟩

theorem wellFormed (h : d.Loses d') : d'.WellFormed :=
  h.gains.grows.wellFormed

theorem trans {d'' : Document} (h : d.Loses d') (h' : d'.Loses d'') : d.Loses d'' :=
  ⟨h.gains.trans h'.gains, h'.fresh_eq.trans h.fresh_eq⟩

theorem detach (wf : d.WellFormed) (n : NodeId) : d.Loses (d.detach n) :=
  ⟨(Gains.refl wf).detach n, wf.fresh_detach n⟩

theorem detachFromRun (wf : d.WellFormed) (n : NodeId) : d.Loses (d.detachFromRun n) := by
  have hn := detach wf n
  rcases detachFromRun_cases d n with he | ⟨run, -, he⟩ <;> rw [he]
  · exact hn
  · exact hn.trans (detach hn.wellFormed run)

theorem detachEmptyParagraph (wf : d.WellFormed) (n : NodeId) : d.Loses (d.detachEmptyParagraph n) := by
  rw [Document.detachEmptyParagraph]
  split
  · exact detach wf n
  · exact refl wf

theorem isNamed (h : d.Loses d') (wf : d.WellFormed) {name : String} (hn : d.isNamed n name = true) :
    d'.isNamed n name = true := by
  rwa [h.gains.isNamed_eq (wf.mem_ids_of_isNamed hn)]

theorem removeInsertionPoints (wf : d.WellFormed) (root : NodeId) : d.Loses (d.removeInsertionPoints root) := by
  refine List.foldlRecOn (motive := d.Loses) (d.insertionNodes root) _ (refl wf) fun d' hd' n _ => hd'.trans ?_
  have wf' := hd'.wellFormed
  rw [removeInsertionPoint]
  split
  · exact refl wf'
  · split
    · exact detach wf' n
    · exact ⟨(Gains.refl wf').relabel n fun _ _ => Label.name?_eraseAttribute, rfl⟩

/-- What is in a tree was there before. -/
theorem mem_treeAt (h : d.Loses d') (hm : m ∈ d.ids) (hn : n ∈ Xml.ids (d'.treeAt m)) : n ∈ Xml.ids (d.treeAt m) := by
  refine (h.gains.mem_or_fresh m hm n hn).resolve_right fun hle => ?_
  have := h.wellFormed.lt_fresh_of_treeAt hn
  have := h.fresh_eq
  omega

end Xml.Document.Loses

/-- Whether `p` is a paragraph with one of the nodes `ns` in it. -/
def Holding (d : Document) (ns : List NodeId) (p : NodeId) : Prop :=
  d.isNamed p Word.paragraph = true ∧ ∃ n ∈ ns, n ∈ Xml.ids (d.treeAt p)

/-- The paragraph that is noted when a text is taken away was around that text in the beginning. -/
theorem loses_removeDirectiveText {d₀ : Document} {ns ps : List NodeId} (h : d₀.Loses d)
    (hn : n ∈ ns) (hps : ∀ p ∈ ps, Holding d₀ ns p) :
    d₀.Loses (Document.removeDirectiveText (ps, d) n).2 ∧
      ∀ p ∈ (Document.removeDirectiveText (ps, d) n).1, Holding d₀ ns p := by
  have wf := h.wellFormed
  unfold Document.removeDirectiveText
  dsimp only
  split
  · exact ⟨h, hps⟩
  · exact ⟨h.trans ⟨(Document.Gains.refl wf).relabel n fun _ _ => Label.name?_eraseAttribute, rfl⟩, hps⟩
  · refine ⟨h.trans (.detachFromRun wf n), fun p hp => ?_⟩
    rcases List.mem_append.mp hp with hp | hp
    · exact hps p hp
    · have hp := Option.mem_toList.mp hp
      have hname : d.isNamed p Word.paragraph = true := List.find?_some (p := (d.isNamed · Word.paragraph)) hp
      have hbelow : n ∈ Xml.ids (d.treeAt p) := wf.mem_treeAt_of_isAncestor (by
        rw [Document.isAncestor, List.contains_iff_mem]
        exact List.mem_of_find?_eq_some hp)
      have hmem : p ∈ d₀.ids := by
        refine (h.gains.grows.mem_or_fresh p (wf.mem_ids_of_isNamed hname)).resolve_right fun hle => ?_
        have := wf.lt_fresh _ (wf.mem_ids_of_isNamed hname)
        have := h.fresh_eq
        omega
      exact ⟨by rwa [← h.gains.isNamed_eq hmem], n, hn, h.mem_treeAt hmem hbelow⟩

theorem loses_foldl_removeDirectiveText {d₀ : Document} {ms : List NodeId} (ns ps : List NodeId) (h : d₀.Loses d)
    (hms : ∀ m ∈ ms, m ∈ ns) (hps : ∀ p ∈ ps, Holding d₀ ns p) :
    d₀.Loses (ms.foldl Document.removeDirectiveText (ps, d)).2 ∧
      ∀ p ∈ (ms.foldl Document.removeDirectiveText (ps, d)).1, Holding d₀ ns p := by
  induction ms generalizing ps d with
  | nil => exact ⟨h, hps⟩
  | cons m ms ih =>
    rw [List.forall_mem_cons] at hms
    obtain ⟨hstep, hnoted⟩ := loses_removeDirectiveText h hms.1 hps
    exact ih _ hstep hms.2 hnoted

theorem stripped_foldl_detachEmptyParagraph (wf : d.WellFormed) (ns : List NodeId)
    (h : ∀ n ∈ ns, d.isNamed n Word.paragraph = true) :
    Stripped (·.isNamed Word.paragraph) (d.labelsAt root)
      ((ns.foldl Document.detachEmptyParagraph d).labelsAt root) := by
  induction ns generalizing d with
  | nil => exact .refl _
  | cons n ns ih =>
    have hstep := Document.Loses.detachEmptyParagraph wf n
    exact (stripped_detachEmptyParagraph wf (h n (List.mem_cons_self ..))).trans
      (ih hstep.wellFormed fun m hm => hstep.isNamed wf (h m (List.mem_cons_of_mem _ hm)))

/-- When the texts of directives are taken away, stripping only leaves out paragraphs. -/
theorem stripped_removeDirectiveTexts (wf : d.WellFormed) (root : NodeId) :
    Stripped (·.isNamed Word.paragraph)
      ((Document.removeDirectiveTexts false d root).labelsAt root)
      ((Document.removeDirectiveTexts true d root).labelsAt root) := by
  obtain ⟨hloses, hnoted⟩ := loses_foldl_removeDirectiveText (d.textElements root) [] (.refl wf)
    (fun _ => id) (by simp)
  unfold Document.removeDirectiveTexts
  generalize (d.textElements root).foldl Document.removeDirectiveText ([], d) = swept at hloses hnoted ⊢
  exact stripped_foldl_detachEmptyParagraph hloses.wellFormed _ fun n hn =>
    hloses.isNamed wf (hnoted n (List.mem_eraseDups.mp hn)).1

end Stripping

/-! ## What is seen without empty paragraphs -/

section Visible

variable {d d' : Document} {root n p : NodeId} {text : List Char} {mute : List String} {closed : Label → Bool}

theorem textsOutside_of_spots {f : Forest Node} (h : ∀ up l a as r, f = wrap up (l ++ cons a as r) →
    closed a.label = true → ∀ b ∈ as.toList, b.label.isNamed Word.text = false) :
    TextsOutside closed (labels f) := by
  induction f with
  | nil => trivial
  | cons a cs rest ihc ihr =>
    refine ⟨fun hclosed m hm => ?_, ihc fun up l b bs r hf => ?_, ihr fun up l b bs r hf => ?_⟩
    · have hm : m ∈ (labels cs).toList := hm
      rw [labels, toList_map] at hm
      obtain ⟨b, hb, rfl⟩ := List.mem_map.mp hm
      exact h [] nil a cs rest rfl hclosed b hb
    · exact h (up ++ [⟨nil, a, rest⟩]) l b bs r (by rw [wrap_append, ← hf]; rfl)
    · obtain ⟨up', l', hwrap, -⟩ := exists_wrap_cons a cs up l
      exact h up' l' b bs r (by rw [hf, hwrap])

/-- Whether texts are outside of what is closed can be read off the identifiers. -/
theorem textsOutside_iff (wf : d.WellFormed) : TextsOutside closed (d.labelsAt root) ↔
    ∀ q ∈ Xml.ids (d.treeAt root), ∀ l, d.label? q = some l → closed l = true →
      ∀ n ∈ d.descendants q, d.isNamed n Word.text = false := by
  have hspot : ∀ {up : List (Frame Node)} {l as r : Forest Node} {a : Node},
      d.treeAt root = wrap up (l ++ cons a as r) → d.descendants a.id = Xml.ids as ∧
        d.label? a.id = some a.label ∧ ∀ b ∈ as.toList, d.label? b.id = some b.label := by
    intro up l as r a ht
    have hat := wf.treeAt_of_spot ht
    refine ⟨by rw [Document.descendants, Document.nodesBelow, hat]; rfl, by rw [Document.label?, hat]; rfl,
      fun b hb => wf.label?_of_mem_treeAt (n := a.id) ?_⟩
    rw [hat, toList_tree]
    exact List.mem_cons_of_mem _ hb
  constructor
  · intro h q hq l hl hclosed n hn
    obtain ⟨up, l', a, as, r, ht, rfl⟩ := exists_spot hq
    obtain ⟨hdesc, hlabel, hlabels⟩ := hspot ht
    rw [Document.labelsAt, ht] at h
    have hin := h.of_wrap
    rw [labels_append, labels_cons, textsOutside_append] at hin
    obtain rfl : a.label = l := Option.some.inj (hlabel.symm.trans hl)
    rw [hdesc] at hn
    obtain ⟨b, hb, rfl⟩ := List.mem_map.mp hn
    rw [Document.isNamed, Document.name?, hlabels b hb]
    exact hin.2.1 hclosed b.label (by rw [labels, toList_map]; exact List.mem_map_of_mem hb)
  · refine fun h => textsOutside_of_spots fun up l a as r ht hclosed b hb => ?_
    obtain ⟨hdesc, hlabel, hlabels⟩ := hspot ht
    have := h a.id (Document.mem_of_spot ht) a.label hlabel hclosed b.id (hdesc ▸ List.mem_map_of_mem hb)
    rwa [Document.isNamed, Document.name?, hlabels b hb] at this

/-- Where nodes are lost, texts stay outside of what is closed. -/
theorem Xml.Document.Loses.textsOutside (h : d.Loses d') (wf : d.WellFormed) (hroot : root ∈ d.ids)
    (hclosed : ∀ {l l' : Label}, l.name? = l'.name? → closed l = closed l')
    (hout : TextsOutside closed (d.labelsAt root)) : TextsOutside closed (d'.labelsAt root) := by
  rw [textsOutside_iff wf] at hout
  rw [textsOutside_iff h.wellFormed]
  intro q hq l hl hc n hn
  have hq := h.mem_treeAt hroot hq
  have hqmem := wf.mem_ids_of_mem_treeAt hq
  rw [h.wellFormed.mem_descendants_iff] at hn
  have hn' := h.mem_treeAt hqmem hn.1
  obtain ⟨node, cs, -, htree⟩ := wf.exists_treeAt hqmem
  have hl₀ : d.label? q = some node.label := by rw [Document.label?, htree]; rfl
  have hname := h.gains.name?_eq q hqmem
  rw [Document.name?, Document.name?, hl, hl₀] at hname
  rw [h.gains.isNamed_eq (wf.mem_ids_of_mem_treeAt hn')]
  exact hout q hq node.label hl₀ (hclosed hname ▸ hc) n (wf.mem_descendants_iff.mpr ⟨hn', hn.2⟩)

/-- Whether a label is one below which texts have no place depends on its name only. -/
theorem isClosed_congr {l l' : Label} (h : l.name? = l'.name?) :
    (l.isNamed Word.text || l.isMute mute) = (l'.isNamed Word.text || l'.isMute mute) := by
  cases l with
  | text s =>
    cases l' with
    | text s' => rfl
    | element tag' => cases h
  | element tag =>
    cases l' with
    | text s' => cases h
    | element tag' =>
      have hname : tag.name = tag'.name := Option.some.inj h
      simp only [Label.isMute, Label.isNamed, Label.name?, Label.isProperty, Label.isElement, hname]

/-- The trees that show nothing have blank texts, if that is so of the runs that show nothing. -/
theorem isBlank_textSigns_of_allBlank {blankRun : Forest Node → Bool} {f : Forest Node}
    (hrun : ∀ g, blankRun g = true → TextsOutside (fun l => l.isNamed Word.text || l.isMute mute) (labels g) →
      ∀ s ∈ textSigns g, s.isBlank = true)
    (h : Word.allBlank blankRun f = true)
    (hout : TextsOutside (fun l => l.isNamed Word.text || l.isMute mute) (labels f)) :
    ∀ s ∈ textSigns f, s.isBlank = true := by
  induction f with
  | nil => simp
  | cons node cs rest _ ih =>
    rw [Word.allBlank, Bool.and_eq_true] at h
    obtain ⟨hclosed, hcs, hrest⟩ := hout
    have hmute : node.label.isMute mute = true → textSigns cs = [] := fun hm => by
      rw [textSigns, texts_eq_nil (hclosed (by simp [hm])), List.map_nil]
    rw [textSigns_cons, List.forall_mem_append]
    refine ⟨?_, ih h.2 hrest⟩
    have hnode := h.1
    unfold Word.isBlankNode at hnode
    split at hnode
    · next content hl =>
      rw [hl, if_neg (by simp [Label.isNamed, Label.name?]), hmute (by rw [hl]; rfl)]
      simp
    · next tag hl =>
      by_cases htext : node.label.isNamed Word.text = true
      · rw [if_pos htext, List.forall_mem_singleton, Sign.isBlank, ← mark?_eq]
        have hname : tag.name = Word.text := by simpa [hl, Label.isNamed, Label.name?] using htext
        rw [hname, if_neg (by decide)] at hnode
        split at hnode
        · cases hnode
        · rwa [if_pos rfl] at hnode
      · rw [if_neg htext]
        by_cases hproperty : Xml.isProperty tag.name = true
        · rw [hmute (Label.isMute_of_isProperty (by rw [hl]; exact hproperty))]
          simp
        · rw [if_neg hproperty] at hnode
          split at hnode
          · cases hnode
          · rw [if_neg (by simpa [hl, Label.isNamed, Label.name?] using htext), Bool.and_eq_true] at hnode
            exact hrun cs hnode.2 hcs

theorem isBlank_textSigns_of_isBlankParagraph {f : Forest Node} (h : Word.isBlankParagraph f = true)
    (hout : TextsOutside (fun l => l.isNamed Word.text || l.isMute mute) (labels f)) :
    ∀ s ∈ textSigns f, s.isBlank = true :=
  isBlank_textSigns_of_allBlank (fun _ hg houtg => isBlank_textSigns_of_allBlank (by simp) hg houtg) h hout

/-- The texts around a spot that is not in a text. -/
theorem exists_textSigns_wrap {up : List (Frame Node)} (hup : ∀ fr ∈ up, fr.value.label.isNamed Word.text = false) :
    ∃ x z, ∀ f, textSigns (wrap up f) = x ++ (textSigns f ++ z) := by
  induction up with
  | nil => exact ⟨[], [], fun f => by simp [wrap]⟩
  | cons fr up ih =>
    rw [List.forall_mem_cons] at hup
    obtain ⟨x, z, h⟩ := ih hup.2
    refine ⟨x ++ textSigns fr.before, textSigns fr.after ++ z, fun f => ?_⟩
    rw [wrap, h, textSigns_append, textSigns_cons, hup.1]
    simp

/-- Whether texts are outside of what is closed, and a node is in none of them. -/
structure InOpen (mute : List String) (d : Document) (root p : NodeId) : Prop where
  outside : TextsOutside (fun l => l.isNamed Word.text || l.isMute mute) (d.labelsAt root)
  not_mem : ∀ q ∈ Xml.ids (d.treeAt root), d.isNamed q Word.text = true → p ∉ Xml.ids (d.treeAt q)

theorem InOpen.of_loses (h : InOpen mute d root p) (wf : d.WellFormed) (hroot : root ∈ d.ids) (hd : d.Loses d') :
    InOpen mute d' root p where
  outside := hd.textsOutside wf hroot isClosed_congr h.outside
  not_mem q hq hname hp := by
    have hq := hd.mem_treeAt hroot hq
    have hmem := wf.mem_ids_of_mem_treeAt hq
    rw [hd.gains.isNamed_eq hmem] at hname
    exact h.not_mem q hq hname (hd.mem_treeAt hmem hp)

/-- The nodes above a spot that is not in a text are no texts. -/
theorem InOpen.isNamed_eq {up : List (Frame Node)} {f : Forest Node} (h : InOpen mute d root p) (wf : d.WellFormed)
    (ht : d.treeAt root = wrap up f) (hp : p ∈ Xml.ids f) :
    ∀ fr ∈ up, fr.value.label.isNamed Word.text = false := by
  induction up generalizing f with
  | nil => simp
  | cons fr up ih =>
    have ht : d.treeAt root = wrap up (fr.before ++ cons fr.value f fr.after) := ht
    have hat := wf.treeAt_of_spot ht
    rw [List.forall_mem_cons]
    refine ⟨?_, ih ht (by simp [hp])⟩
    by_contra hname
    refine h.not_mem fr.value.id (Document.mem_of_spot ht) ?_ (by rw [hat]; simp [hp])
    rw [Document.isNamed, Document.name?, Document.label?, hat]
    rwa [Bool.not_eq_false] at hname

/-- Taking out a paragraph that shows nothing makes no difference but for blanks. -/
theorem Displays.detachEmptyParagraph (h : Displays Sign.IsUnmarked d root text)
    (hname : d.isNamed p Word.paragraph = true) (hp : InOpen mute d root p) :
    ∃ text', Displays Sign.IsUnmarked (d.detachEmptyParagraph p) root text' ∧
      visible true text' = visible true text := by
  have wf := h.wellFormed
  have hloses := Document.Loses.detach wf p
  rw [Document.detachEmptyParagraph]
  split
  swap
  · exact ⟨text, h, rfl⟩
  next hempty =>
    rw [Bool.and_eq_true] at hempty
    rcases detach_cases wf root p with he | ⟨fr, up, l, a, as, r, rfl, ht, hd⟩
    · exact ⟨text, h.showsAs hloses.gains (he ▸ .refl _), rfl⟩
    have hup := hp.isNamed_eq wf ht (by simp)
    obtain ⟨x, z, hsigns⟩ := exists_textSigns_wrap hup
    have hat := wf.treeAt_of_spot ht
    have htext : a.label.isNamed Word.text = false := by
      have := Document.isNamed_eq_false_of_ne hname (show Word.text ≠ Word.paragraph by decide)
      rwa [Document.isNamed, Document.name?, Document.label?, hat] at this
    have hold : textSigns (d.treeAt root) = x ++ (textSigns l ++ (textSigns as ++ (textSigns r ++ z))) := by
      rw [ht, hsigns, textSigns_append, textSigns_cons, htext]
      simp
    have hnew : textSigns ((d.detach a.id).treeAt root) = x ++ (textSigns l ++ (textSigns r ++ z)) := by
      rw [hd, hsigns, textSigns_append]
      simp
    have hblank : ∀ s ∈ textSigns as, s.isBlank = true := by
      have hparagraph := hempty.1
      rw [Document.isParagraphEmpty, hat] at hparagraph
      have hout := hp.outside
      rw [Document.labelsAt, ht] at hout
      have hin := hout.of_wrap
      rw [labels_append, labels_cons, textsOutside_append] at hin
      exact isBlank_textSigns_of_isBlankParagraph hparagraph hin.2.2.1
    refine ⟨_, ⟨listed_texts hloses.wellFormed (hloses.gains.grows.mem_ids _ h.listed.mem_ids) ?_ ?_, ?_, rfl⟩, ?_⟩
    · rw [hloses.gains.isNamed_eq h.listed.mem_ids]
      exact h.isNamed_eq
    · exact (hp.of_loses wf h.listed.mem_ids hloses).outside.mono fun _ => isMute_of_isClosed
    · intro s hs
      refine h.forall_sign s ?_
      rw [hnew] at hs
      rw [hold]
      simp only [List.mem_append] at hs ⊢
      tauto
    · rw [hnew, ← h.shown_eq, hold]
      simp [visible_shown_of_isBlank hblank]

theorem Displays.foldl_detachEmptyParagraph {ps : List NodeId} (h : Displays Sign.IsUnmarked d root text)
    (hps : ∀ p ∈ ps, d.isNamed p Word.paragraph = true ∧ InOpen mute d root p) :
    ∃ text', Displays Sign.IsUnmarked (ps.foldl Document.detachEmptyParagraph d) root text' ∧
      visible true text' = visible true text := by
  induction ps generalizing d text with
  | nil => exact ⟨text, h, rfl⟩
  | cons p ps ih =>
    have wf := h.wellFormed
    rw [List.forall_mem_cons] at hps
    have hloses := Document.Loses.detachEmptyParagraph wf p
    obtain ⟨text₁, h₁, hvisible₁⟩ := h.detachEmptyParagraph hps.1.1 hps.1.2
    obtain ⟨text₂, h₂, hvisible₂⟩ := ih h₁ fun q hq =>
      ⟨hloses.isNamed wf (hps.2 q hq).1, (hps.2 q hq).2.of_loses wf h.listed.mem_ids hloses⟩
    exact ⟨text₂, h₂, hvisible₂.trans hvisible₁⟩

/-- A paragraph around a text is in no other text. -/
theorem Holding.inOpen (wf : d.WellFormed)
    (hout : TextsOutside (fun l => l.isNamed Word.text || l.isMute mute) (d.labelsAt root))
    (h : Holding d (d.textElements root) p) : InOpen mute d root p where
  outside := hout
  not_mem q hq hname hp := by
    obtain ⟨hparagraph, n, hn, hnp⟩ := h
    have hntext := (wf.mem_textElements_iff.mp hn).2
    obtain ⟨l, hl, htext⟩ := Document.isNamed_iff.mp hname
    have hnone := (textsOutside_iff wf).mp hout q hq l hl (by simp [htext]) n
    rw [wf.mem_descendants_iff, hntext] at hnone
    by_cases hnq : n = q
    · -- The two would be in each other.
      have hne : n ≠ p := by
        rintro rfl
        rw [Document.isNamed_eq_false_of_ne hparagraph (by decide)] at hntext
        cases hntext
      exact wf.not_mem_treeAt hnp hne (hnq ▸ hp)
    · rw [← wf.treeAt_treeAt hp] at hnp
      cases hnone ⟨mem_ids_of_mem_treeAt hnp, hnq⟩

/-- Stripping takes out nothing but blanks when the texts of directives are taken out. -/
theorem Displays.removeDirectiveTexts_true (h : Displays Sign.IsFilled d root text)
    (hout : TextsOutside (fun l => l.isNamed Word.text || l.isMute mute) (d.labelsAt root)) :
    ∃ text', Displays Sign.IsUnmarked (Document.removeDirectiveTexts true d root) root text' ∧
      visible true text' = visible true text := by
  have wf := h.wellFormed
  obtain ⟨hloses, hnoted⟩ := loses_foldl_removeDirectiveText (d.textElements root) [] (.refl wf)
    (fun _ => id) (by simp)
  have hcleared := h.removeDirectiveTexts
  unfold Document.removeDirectiveTexts at hcleared ⊢
  generalize (d.textElements root).foldl Document.removeDirectiveText ([], d) = swept at hloses hnoted hcleared ⊢
  have hps : ∀ p ∈ swept.1.eraseDups, swept.2.isNamed p Word.paragraph = true ∧ InOpen mute swept.2 root p := by
    intro p hp
    have hp := hnoted p (List.mem_eraseDups.mp hp)
    exact ⟨hloses.isNamed wf hp.1, (hp.inOpen wf hout).of_loses wf h.listed.mem_ids hloses⟩
  exact hcleared.foldl_detachEmptyParagraph hps

/-- Finishing a document takes out the texts of directives, and if it strips paragraphs nothing else but blanks. -/
theorem Displays.finish_visible (h : Displays Sign.IsFilled d root text)
    (hnone : ∀ l ∈ (d.labelsAt root).toList, l.isAnchor = false)
    (hout : TextsOutside (fun l => l.isNamed Word.text || l.isMute mute) (d.labelsAt root)) (strip : Bool) :
    ∃ text', Displays Sign.IsUnmarked (d.finish strip root) root text' ∧
      visible strip text' = visible strip text := by
  cases strip with
  | false => exact ⟨text, h.finish hnone, rfl⟩
  | true =>
    have hout' := (Document.Loses.removeInsertionPoints h.wellFormed root).textsOutside h.wellFormed h.listed.mem_ids
      isClosed_congr hout
    obtain ⟨text', h', hvisible⟩ := (h.removeInsertionPoints hnone).removeDirectiveTexts_true hout'
    exact ⟨text', (h'.renumber ..).ensureCellParagraphs, hvisible⟩

end Visible

/-! ## Rendering with and without stripping -/

section Rendering

variable {settings : Settings} {d : Document} {root : NodeId} {b : ModelBinding} {scopes : Scopes}

/-- Whether paragraphs are stripped or not, what is seen of the processed text is what is seen of the text that the
flattened one is interpreted as. One fails if and only if the other does. -/
theorem visible_renderedText? (h : Renderable settings d root)
    (hnest : (Block.nest (Block.markersOf (FlatText.ofDocument d root).text)).isOk = true) (b : ModelBinding)
    (scopes : Scopes) :
    (b.renderedText? settings d root scopes).map (visible settings.stripEmptyParagraphs ·.toList) =
      (b.interpretedText? (FlatText.ofDocument d root).text scopes).map
        (visible settings.stripEmptyParagraphs ·.toList) := by
  obtain ⟨P, hP, hexpand⟩ := h.runs_expandBlocks hnest b scopes
  have hruns : Runs (processAt settings b.driver root) ⟨d, scopes⟩
      (fun _ w' => ∃ text, b.interpret P 0 .all scopes = .ok text ∧
        visible settings.stripEmptyParagraphs (FlatText.ofDocument w'.document root).text.toList =
          visible settings.stripEmptyParagraphs text)
      fun _ _ => Fails (b.interpret P 0 .all scopes) := by
    refine hexpand.bind ?_
    rintro - w' ⟨⟨text, shown, hresult, hvisible, hdisplays⟩, hnone, hout⟩
    obtain ⟨text', hdisplays', hvisible'⟩ := hdisplays.finish_visible hnone hout settings.stripEmptyParagraphs
    refine runs_change ⟨text, hresult, ?_⟩
    rw [hdisplays'.ofDocument_text, String.toList_ofList, hvisible', hvisible]
  rw [ModelBinding.renderedText?, ModelBinding.interpretedText?, hP, Option.bind_some]
  rw [Runs] at hruns
  cases hrun : processAt settings b.driver root ⟨d, scopes⟩ with
  | ok u w' =>
    rw [hrun] at hruns
    obtain ⟨text, hresult, hvisible⟩ := hruns
    simp [hresult, hvisible, Except.toOption]
  | error e w' =>
    rw [hrun] at hruns
    cases hresult : b.interpret P 0 .all scopes with
    | ok text => exact absurd hresult (hruns text)
    | error e => rfl

/-- If the directives of the flattened text cannot be nested, processing fails. -/
theorem Renderable.renderedText?_eq_none (h : Renderable settings d root)
    (hnest : (Block.nest (Block.markersOf (FlatText.ofDocument d root).text)).isOk = false) (b : ModelBinding)
    (scopes : Scopes) : b.renderedText? settings d root scopes = none := by
  rw [ModelBinding.renderedText?, processAt_eq]
  cases hread : readBlocks settings root (⟨d, scopes⟩ : Workspace Scopes) with
  | error e w => rfl
  | ok T w =>
    obtain ⟨B, B', d₂, d₃, hstages, -⟩ := exists_stages hread
    obtain ⟨B₀, hB₀⟩ := Block.exists_nest_of_directives h.map_directive_prepare hstages.nest_eq
    rw [hB₀] at hnest
    cases hnest

/-- Stripping makes no difference to whether processing succeeds, and none to the text that comes out of it but for
blanks. -/
theorem visible_renderedText?_strip (h : Renderable settings d root) (b : ModelBinding) (scopes : Scopes) :
    (b.renderedText? { settings with stripEmptyParagraphs := true } d root scopes).map (visible true ·.toList) =
      (b.renderedText? { settings with stripEmptyParagraphs := false } d root scopes).map (visible true ·.toList) := by
  have hrenderable : ∀ strip, Renderable { settings with stripEmptyParagraphs := strip } d root := fun strip =>
    ⟨h.wellFormed, h.exists_label, h.pristine, h.whole, h.tableFree⟩
  cases hnest : (Block.nest (Block.markersOf (FlatText.ofDocument d root).text)).isOk with
  | false =>
    rw [(hrenderable true).renderedText?_eq_none hnest, (hrenderable false).renderedText?_eq_none hnest]
  | true =>
    have hstripped := visible_renderedText? (hrenderable true) hnest b scopes
    have hkept := congrArg (Option.map (List.filter (!Text.isBlank ·)))
      (visible_renderedText? (hrenderable false) hnest b scopes)
    rw [Option.map_map, Option.map_map] at hkept
    exact hstripped.trans hkept.symm

end Rendering

/-- An element that is no paragraph and holds this. -/
def wrapperOf (children : Forest Label) : Forest Label :=
  tree (.element ⟨"w:sdtContent", []⟩) children

/-- A block that ends in the only paragraph of another element. -/
def wrappedEnd : Document :=
  Word.documentOf (Word.paragraphOf "{{#A}}" ++ wrapperOf (Word.paragraphOf "{{/A}}{{?b}}{{/}}"))

/-- With stripping, the element in which a block ends is taken away with its paragraph. -/
theorem stripping_takes_wrapper :
    let empty : Forest Label := tree (.element ⟨Word.paragraph, []⟩) .nil
    let model : Json := .object [("A", .array []), ("b", .bool true)]
    let kept : Forest Label := tree (.element ⟨Word.body, []⟩) (empty ++ wrapperOf empty)
    let stripped : Forest Label := tree (.element ⟨Word.body, []⟩) .nil
    processedLabels { stripEmptyParagraphs := false } model wrappedEnd = .ok kept ∧
      processedLabels { stripEmptyParagraphs := true } model wrappedEnd = .ok stripped ∧
      ¬ Stripped (·.isNamed Word.paragraph) kept stripped := by
  refine ⟨by decide +kernel, by decide +kernel, ?_⟩
  rintro (_ | ⟨hbody, -⟩ | ⟨hname, -⟩)
  · -- The element stands among the paragraphs of the body.
    have := hbody.roots_eq
    revert this
    decide
  · revert hname
    decide

end WordTemplate
