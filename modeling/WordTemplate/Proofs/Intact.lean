import WordTemplate.Proofs.Preparation

/-!
# Intact texts

Marks that can stand between the parts of a directive are taken out before directives are looked for, and line
breaks afterwards. If nothing of that kind stands in a text or has a text in it, no text is changed by this.

* `Whole`: nothing is in a text that is taken out.
* `isolable_intact`: isolating directives leaves it so.
* `Intact.removeMarkup`, `Intact.trimLineBreaks`: what is taken out leaves the landmarks as they are.
-/

namespace WordTemplate

open Xml Forest

/-! ## Forests -/

/-- Whether this is an element with one of the names. -/
def Xml.Label.isAmong (names : List String) (l : Label) : Bool :=
  names.any (l.isNamed ·)

/-- Whether no element has one of the names. -/
def Bare (names : List String) (f : Forest Label) : Prop :=
  ∀ l ∈ f.toList, l.isAmong names = false

/-- Whether no element with one of the names is in a text. -/
def Whole (names : List String) : Forest Label → Prop
  | .nil => True
  | .cons l cs rest => (l.isNamed Word.text = true → Bare names cs) ∧ Whole names cs ∧ Whole names rest

instance decidableBare (names : List String) (f : Forest Label) : Decidable (Bare names f) :=
  inferInstanceAs (Decidable (∀ l ∈ f.toList, l.isAmong names = false))

instance decidableWhole (names : List String) : (f : Forest Label) → Decidable (Whole names f)
  | .nil => inferInstanceAs (Decidable True)
  | .cons l cs rest =>
    have := decidableWhole names cs
    have := decidableWhole names rest
    inferInstanceAs (Decidable ((l.isNamed Word.text = true → Bare names cs) ∧ Whole names cs ∧ Whole names rest))

section Whole

variable {names : List String} {l : Label} {f g : Forest Label}

theorem Xml.Label.isMute_of_isAmong (h : l.isAmong names = true) : l.isMute names = true := by
  rw [isAmong] at h
  rw [isMute, h, Bool.or_true]

theorem isAmong_of_isNamed_text (hnames : Word.text ∉ names) (h : l.isNamed Word.text = true) :
    l.isAmong names = false := by
  by_contra hl
  rw [isNamed_text_eq_false hnames (Label.isMute_of_isAmong (by simpa using hl))] at h
  cases h

theorem isAmong_of_isElement_eq_false (h : l.isElement = false) : l.isAmong names = false := by
  cases l with
  | text content => simp [Label.isAmong, Label.isNamed, Label.name?]
  | element tag => cases h

theorem bare_textChildren (s : String) : Bare names (textChildren s) := by
  intro l hl
  rw [textChildren] at hl
  split at hl
  · cases hl
  · obtain rfl : l = .text s := by simpa [tree, toList] using hl
    exact isAmong_of_isElement_eq_false rfl

/-- A text with nothing in it but characters. -/
theorem bare_text (hnames : Word.text ∉ names) (hl : l.isNamed Word.text = true) (s : String) :
    Bare names (tree l (textChildren s)) := by
  intro m hm
  rcases List.mem_cons.mp hm with rfl | hm
  · exact isAmong_of_isNamed_text hnames hl
  · exact bare_textChildren s m (by simpa [tree, toList] using hm)

theorem Bare.whole (h : Bare names f) : Whole names f := by
  induction f with
  | nil => trivial
  | cons l cs rest ihc ihr =>
    have hcs : Bare names cs := fun m hm => h m (by simp [toList, hm])
    exact ⟨fun _ => hcs, ihc hcs, ihr fun m hm => h m (by simp [toList, hm])⟩

@[simp] theorem whole_append : Whole names (f ++ g) ↔ Whole names f ∧ Whole names g := by
  induction f with
  | nil => simp [Whole]
  | cons l cs rest _ ih => simp only [cons_append, Whole, ih, and_assoc]

end Whole

/-! ## Spots -/

section Spot

variable {names : List String} {label : Label} {up : List (Frame Node)} {f g l r : Forest Node}

theorem Whole.of_wrap (h : Whole names (labels (wrap up f))) : Whole names (labels f) := by
  induction up generalizing f with
  | nil => exact h
  | cons fr up ih =>
    have := ih h
    rw [labels_append, labels_cons, whole_append] at this
    exact this.2.2.1

/-- Other trees in a spot, with no more elements of these names. -/
theorem Whole.wrap (h : Whole names (labels (wrap up f))) (hg : Whole names (labels g))
    (hold : ∀ l ∈ (labels g).toList, l.isAmong names = true → l ∈ (labels f).toList) :
    Whole names (labels (Forest.wrap up g)) := by
  induction up generalizing f g with
  | nil => exact hg
  | cons fr up ih =>
    have hspot : Whole names (labels (fr.before ++ cons fr.value f fr.after)) := Whole.of_wrap h
    rw [labels_append, labels_cons, whole_append] at hspot
    refine ih h ?_ fun l hl hname => ?_
    · rw [labels_append, labels_cons, whole_append]
      refine ⟨hspot.1, fun htext m hm => ?_, hg, hspot.2.2.2⟩
      by_contra hname
      exact hname (hspot.2.1 htext m (hold m hm (by simpa using hname)))
    · simp only [labels_append, labels_cons, toList_append, toList, List.mem_append, List.mem_cons] at hl ⊢
      exact hl.imp_right (Or.imp_right (Or.imp_left (hold l · hname)))

/-- No text is above an element with one of the names. -/
theorem Whole.isOpen (h : Whole names (labels (Forest.wrap up f))) (hlabel : label ∈ (labels f).toList)
    (hname : label.isAmong names = true) : ∀ fr ∈ up, fr.value.label.isNamed Word.text = false := by
  induction up generalizing f with
  | nil => simp
  | cons fr up ih =>
    have hspot : Whole names (labels (fr.before ++ cons fr.value f fr.after)) := Whole.of_wrap h
    rw [labels_append, labels_cons, whole_append] at hspot
    rw [List.forall_mem_cons]
    refine ⟨?_, ih h (by simp [toList, hlabel])⟩
    by_contra htext
    rw [hspot.2.1 (by simpa using htext) label hlabel] at hname
    cases hname

theorem Whole.remove (h : Whole names (labels (Forest.wrap up (l ++ (f ++ r))))) :
    Whole names (labels (Forest.wrap up (l ++ r))) := by
  have hspot := Whole.of_wrap h
  simp only [labels_append, whole_append] at hspot
  refine h.wrap ?_ fun m hm _ => ?_
  · rw [labels_append, whole_append]
    exact ⟨hspot.1, hspot.2.2⟩
  · simp only [labels_append, toList_append, List.mem_append] at hm ⊢
    exact hm.imp_right .inr

theorem Whole.insert (h : Whole names (labels (Forest.wrap up (l ++ r)))) (hf : Bare names (labels f)) :
    Whole names (labels (Forest.wrap up (l ++ (f ++ r)))) := by
  have hspot := Whole.of_wrap h
  simp only [labels_append, whole_append] at hspot
  refine h.wrap ?_ fun m hm hname => ?_
  · simp only [labels_append, whole_append]
    exact ⟨hspot.1, hf.whole, hspot.2⟩
  · simp only [labels_append, toList_append, List.mem_append] at hm ⊢
    refine hm.imp_right (·.resolve_left fun hm => ?_)
    rw [hf m hm] at hname
    cases hname

/-- The nodes above a spot do not matter for the landmarks, if none is a text. -/
theorem landmarks_wrap_congr (hup : ∀ fr ∈ up, fr.value.label.isNamed Word.text = false)
    (h : landmarks f = landmarks g) : landmarks (Forest.wrap up f) = landmarks (Forest.wrap up g) := by
  induction up generalizing f g with
  | nil => exact h
  | cons fr up ih =>
    rw [List.forall_mem_cons] at hup
    refine ih hup.2 ?_
    rw [landmarks_append, landmarks_append, landmarks_cons, landmarks_cons]
    congr 2
    by_cases hl : fr.value.label.isLandmark = true
    · have ha : fr.value.label.isAnchor = true := by rwa [Label.isLandmark, hup.1, Bool.or_false] at hl
      rw [landmarks_tree_of_isLandmark f hl, landmarks_tree_of_isLandmark g hl, signOf, signOf, if_pos ha, if_pos ha]
    · rw [Bool.not_eq_true] at hl
      rw [landmarks_tree f hl, landmarks_tree g hl, h]

/-- Nothing is lost with an element that is in no text. -/
theorem Loses.landmarks_eq (h : Loses label f g) (hw : Whole names (labels f)) (hname : label.isAmong names = true) :
    landmarks f = landmarks g := by
  cases h with
  | same h => exact h
  | spot h hlabel => exact landmarks_wrap_congr (hw.isOpen hlabel hname) h

end Spot

/-! ## Scopes -/

/-- Whether a scope has the landmarks `ls`, and nothing with one of the names is in a text or has a landmark in
it. -/
structure Intact (names : List String) (d : Document) (root : NodeId) (ls : List Landmark) : Prop where
  charted : Charted d root names ls
  whole : Whole names (d.labelsAt root)

section Intact

variable {names : List String} {d₀ d d' : Document} {root n : NodeId} {ls : List Landmark} {label : Label}

theorem whole_detach (wf : d.WellFormed) (h : Whole names (d.labelsAt root)) (n : NodeId) :
    Whole names ((d.detach n).labelsAt root) := by
  rw [Document.labelsAt] at h ⊢
  rcases detach_cases wf root n with he | ⟨fr, up, l, a, as, r, -, ht, hd⟩
  · rwa [he]
  · rw [ht] at h
    rw [hd]
    exact Whole.remove (f := tree a as) h

theorem whole_detachFromRun (wf : d.WellFormed) (h : Whole names (d.labelsAt root)) (n : NodeId) :
    Whole names ((d.detachFromRun n).labelsAt root) := by
  rcases detachFromRun_cases d n with he | ⟨run, -, he⟩ <;> rw [he]
  · exact whole_detach wf h n
  · exact whole_detach (wf.grows_detach n).wellFormed (whole_detach wf h n) run

/-- Taking out an element with one of the names. -/
theorem Intact.detach (h : Intact names d root ls) (hn : d.label? n = some label)
    (hname : label.isAmong names = true) : Intact names (d.detach n) root ls := by
  have hloses := h.charted.loses_detach hn (Label.isMute_of_isAmong hname)
  have hC := h.charted.of_thins (.detach h.charted.wellFormed n)
  rw [← hloses.landmarks_eq h.whole hname, h.charted.landmarks_eq] at hC
  exact ⟨hC, whole_detach h.charted.wellFormed h.whole n⟩

theorem Intact.detachFromRun (h : Intact names d root ls) (hplain : ∀ x ∈ ls, x.sign.isAnchor = false)
    (hn : d.label? n = some label) (hname : label.isAmong names = true) :
    Intact names (d.detachFromRun n) root ls := by
  have hloses := h.charted.loses_detachFromRun hplain hn (Label.isMute_of_isAmong hname)
  have hC := h.charted.of_thins (.detachFromRun h.charted.wellFormed n)
  rw [← hloses.landmarks_eq h.whole hname, h.charted.landmarks_eq] at hC
  exact ⟨hC, whole_detachFromRun h.charted.wellFormed h.whole n⟩

theorem isAmong_of_isNamed {name : String} (hname : name ∈ names) (h : d.isNamed n name = true) :
    ∃ label, d.label? n = some label ∧ label.isAmong names = true := by
  obtain ⟨label, hlabel, hnamed⟩ := Document.isNamed_iff.mp h
  exact ⟨label, hlabel, List.any_eq_true.mpr ⟨name, hname, hnamed⟩⟩

/-- Taking out marks that can stand between the parts of a directive. -/
theorem Intact.removeMarkup (h : Intact names d root ls) (hplain : ∀ x ∈ ls, x.sign.isAnchor = false)
    (hnames : ∀ name ∈ [Word.proofError, Word.bookmarkStart, Word.bookmarkEnd], name ∈ names) :
    Intact names (d.removeMarkup root) root ls := by
  rw [Document.removeMarkup]
  generalize d.descendants root = ns
  induction ns generalizing d with
  | nil => exact h
  | cons n ns ih =>
    refine ih ?_
    rw [Document.removeMarkupAt]
    split
    · next hn =>
      obtain ⟨label, hlabel, hname⟩ := isAmong_of_isNamed (hnames _ (by simp)) hn
      exact h.detach hlabel hname
    split
    · next hn =>
      have hn : ∃ name ∈ names, d.isNamed n name = true := by
        rcases (Bool.or_eq_true _ _).mp hn with hn | hn
        · exact ⟨_, hnames _ (by simp), hn⟩
        · exact ⟨_, hnames _ (by simp), hn⟩
      obtain ⟨name, hmem, hn⟩ := hn
      obtain ⟨label, hlabel, hname⟩ := isAmong_of_isNamed hmem hn
      exact h.detachFromRun hplain hlabel hname
    · exact h

/-- Taking line breaks out of their runs. -/
theorem Intact.foldl_detachFromRun (h : Intact names d root ls) (hplain : ∀ x ∈ ls, x.sign.isAnchor = false)
    (hbreak : Word.lineBreak ∈ names) {ns : List NodeId} (hns : ∀ n ∈ ns, d.isNamed n Word.lineBreak = true) :
    Intact names (ns.foldl Document.detachFromRun d) root ls := by
  induction ns generalizing d with
  | nil => exact h
  | cons n ns ih =>
    rw [List.forall_mem_cons] at hns
    obtain ⟨label, hlabel, hname⟩ := isAmong_of_isNamed hbreak hns.1
    have hthins : Thins names d (d.detachFromRun n) root := .detachFromRun h.charted.wellFormed n
    refine ih (h.detachFromRun hplain hlabel hname) fun m hm => ?_
    rw [Document.isNamed, Document.name?, hthins.label?_eq]
    exact hns.2 m hm

theorem Intact.trimLineBreaks (h : Intact names d root ls) (hplain : ∀ x ∈ ls, x.sign.isAnchor = false)
    (hbreak : Word.lineBreak ∈ names) (ns : List NodeId) :
    Intact names (ns.foldl Document.trimLineBreaks d) root ls := by
  induction ns generalizing d with
  | nil => exact h
  | cons n ns ih =>
    refine ih ?_
    rw [Document.trimLineBreaks]
    split
    · exact h
    · dsimp only
      split
      · exact h
      · refine h.foldl_detachFromRun hplain hbreak fun m hm => ?_
        rcases List.mem_append.mp hm with hm | hm <;> exact (List.mem_filter.mp hm).2

/-- Other content of a text. -/
theorem Whole.put {u v : List Landmark} {x : Landmark} {fr : Frame Node} {up : List (Frame Node)}
    {l as r g : Forest Node} {a : Node} (h : Whole names (d.labelsAt root))
    (hat : Stands d root names u x v fr up l a as r) (ht : d'.treeAt root = Forest.wrap (fr :: up) (l ++ (g ++ r)))
    (hg : Bare names (labels g)) : Whole names (d'.labelsAt root) := by
  rw [Document.labelsAt] at h ⊢
  rw [hat.treeAt_eq] at h
  rw [ht]
  exact (Whole.remove (f := tree a as) h).insert hg

/-- Intact scopes stay so when directives are isolated. -/
theorem isolable_intact (wf₀ : d₀.WellFormed) (hs : root ∈ d₀.ids) (hnames : Word.text ∉ names) :
    Isolable fun d ls => d₀.Within d root ∧ Intact names d root ls where
  nodup h := h.2.charted.nodup
  innerText_eq h hx := h.2.charted.innerText_eq hx
  setText {d u x v marks s} h hx content := by
    obtain ⟨hw, hC⟩ := setText_chart h.1 wf₀ hs h.2.charted hx content
    obtain ⟨fr, up, l, a, as, r, hat⟩ := h.2.charted.exists_stands
    obtain ⟨-, hn, -, -⟩ := hat.text hx
    obtain ⟨cs, hcs, -, ht, -⟩ := Document.setText_spec h.1 wf₀ hs hat.treeAt_eq
      (hat.isElement h.2.charted.sound).1 content
    refine ⟨hw, hC, h.2.whole.put hat (g := tree a cs) (by rw [hat.eq]; exact ht) ?_⟩
    rw [labels_tree, hcs]
    exact bare_text hnames hn content
  writeMarked {d u x v marks s} h hx content name := by
    obtain ⟨hw, hC⟩ := writeMarked_spec h.1 wf₀ hs h.2.charted hx content name
    obtain ⟨fr, up, l, a, as, r, hat⟩ := h.2.charted.exists_stands
    obtain ⟨-, hn, -, -⟩ := hat.text hx
    obtain ⟨cs, hcs, hw', ht, -⟩ := Document.writeText_spec h.1 wf₀ hs hat.treeAt_eq
      (hat.isElement h.2.charted.sound).1 content
    have ht' := Document.treeAt_relabel_spot hw'.grows.wellFormed ht (Label.setAttribute Word.markAttribute name)
    refine ⟨hw, hC, h.2.whole.put hat (g := tree _ cs) (by rw [hat.eq]; exact ht') ?_⟩
    rw [labels_tree, hcs]
    exact bare_text hnames (by simpa using hn) content
  insertBefore {d u x v} h content := by
    obtain ⟨hw, hC⟩ := insertBefore_chart h.1 wf₀ hs hnames h.2.charted content
    obtain ⟨fr, up, l, a, as, r, hat⟩ := h.2.charted.exists_stands
    obtain ⟨f, hf, hmakes⟩ := Document.createTextElement_spec h.1.grows.wellFormed content
    obtain ⟨-, ht⟩ := hmakes.insertBefore_spec h.1 wf₀ hs hat.treeAt_eq
    have hwhole := h.2.whole
    refine ⟨hw, hC, ?_⟩
    rw [Document.labelsAt, hat.treeAt_eq] at hwhole
    rw [hat.eq, Document.labelsAt, ht]
    refine hwhole.insert ?_
    rw [hf]
    exact bare_text hnames (by decide) content
  insertAfter {d u x v} h content := by
    obtain ⟨hw, hC⟩ := insertAfter_chart h.1 wf₀ hs hnames h.2.charted content
    obtain ⟨fr, up, l, a, as, r, hat⟩ := h.2.charted.exists_stands
    obtain ⟨f, hf, hmakes⟩ := Document.createTextElement_spec h.1.grows.wellFormed content
    obtain ⟨-, ht⟩ := hmakes.insertAfter_spec h.1 wf₀ hs hat.treeAt_eq
    have hwhole := h.2.whole
    have hsplit : ∀ g, l ++ cons a as g = (l ++ tree a as) ++ g := fun g =>
      (Forest.append_assoc l (tree a as) g).symm
    refine ⟨hw, hC, ?_⟩
    rw [Document.labelsAt, hat.treeAt_eq, hsplit] at hwhole
    rw [hat.eq, Document.labelsAt, ht, hsplit]
    refine hwhole.insert ?_
    rw [hf]
    exact bare_text hnames (by decide) content
  detachFromRun {d u x v} h := by
    obtain ⟨hw, hC⟩ := detachFromRun_chart h.1 wf₀ hs h.2.charted
    exact ⟨hw, hC, whole_detachFromRun h.1.grows.wellFormed h.2.whole _⟩

end Intact

/-! ## The whole preparation -/

/-- The elements that may be taken out while a document is prepared. -/
def Settings.takenOut (settings : Settings) : List String :=
  [Word.proofError, Word.bookmarkStart, Word.bookmarkEnd] ++ settings.mute

section Prepare

variable {names names' : List String} {f : Forest Label}

theorem isMute_mono (h : ∀ name ∈ names, name ∈ names') {l : Label} (hl : l.isMute names = true) :
    l.isMute names' = true := by
  simp only [Label.isMute, Bool.or_eq_true, List.any_eq_true] at hl ⊢
  rcases hl with hl | ⟨name, hname, hl⟩
  · exact .inl hl
  · exact .inr ⟨name, h name hname, hl⟩

theorem Sound.mono (h : ∀ name ∈ names, name ∈ names') (hf : Sound names' f) : Sound names f := by
  induction f with
  | nil => trivial
  | cons l cs rest ihc ihr => exact ⟨hf.1, fun hl => hf.2.1 (isMute_mono h hl), ihc hf.2.2.1, ihr hf.2.2.2⟩

theorem Pristine.mono (h : ∀ name ∈ names, name ∈ names') (hf : Pristine names' f) : Pristine names f where
  mark_eq := hf.mark_eq
  insertion_eq := hf.insertion_eq
  texts := hf.texts.mono fun l hl => by
    rw [Bool.or_eq_true] at hl ⊢
    exact hl.imp_right (isMute_mono h)

theorem Settings.not_mem_takenOut (settings : Settings) : Word.text ∉ settings.takenOut := by
  rw [takenOut, mute]
  split <;> decide

/-- The landmarks after the preparation read like the tokens of the text that was there before it. -/
theorem prepare_reads {settings : Settings} {d : Document} {root : NodeId} {label : Label} (wf : d.WellFormed)
    (hroot : d.label? root = some label) (htext : label.isNamed Word.text = false)
    (h : Pristine settings.takenOut (d.labelsAt root)) (hwhole : Whole settings.takenOut (d.labelsAt root)) :
    ∃ ls, Prepares settings d root ls (tokens (FlatText.ofDocument d root).text) := by
  have hnames := settings.not_mem_takenOut
  have hmute : ∀ name ∈ settings.mute, name ∈ settings.takenOut := fun _ => List.mem_append_right _
  obtain ⟨ls, ts, hprep⟩ := prepare_spec wf hroot htext (h.mono hmute)
  have hplain : ∀ x ∈ landmarks (d.treeAt root), x.IsPlain := fun x hx =>
    isPlain_of_mem_landmarks h.mark_eq h.insertion_eq hx
  have hC := h.charted hnames wf hroot htext
  have hI := Intact.removeMarkup ⟨hC, hwhole⟩ (fun x hx => (hplain x hx).isAnchor_eq)
    fun name hname => List.mem_append_left _ hname
  -- The text is the same after marks have been taken out.
  have hflat : FlatText.ofDocument (d.removeMarkup root) root = FlatText.ofDocument d root := by
    have hentries := (ofDocument_eq hI.charted).trans (ofDocument_eq hC).symm
    cases hF : FlatText.ofDocument (d.removeMarkup root) root
    cases hF' : FlatText.ofDocument d root
    rw [hF, hF'] at hentries
    exact congrArg _ hentries
  obtain ⟨ls', ⟨hw, hI'⟩, hreads, -⟩ := (isolable_intact hI.charted.wellFormed hI.charted.mem_ids
    hnames).isolateDirectives_spec ⟨.refl hI.charted.wellFormed, hI⟩ (ofDocument_eq hI.charted) hplain
  rw [hflat] at hreads
  -- Nor do line breaks change anything that are taken out next to directives.
  have hI'' : Intact settings.takenOut (prepare settings root d).2 root ls' := by
    rw [prepare_snd]
    split
    · next htrim =>
      refine hI'.trimLineBreaks hreads.isAnchor_eq ?_ _
      simp [Settings.takenOut, Settings.mute, htrim]
    · exact hI'
  obtain rfl : ls' = ls := hI''.charted.landmarks_eq.symm.trans hprep.charted.landmarks_eq
  exact ⟨ls', { hprep with
    reads := hreads
    skips := by
      rw [tokens, directivesOf_tokensFrom]
      exact skipsIgnored_findAll _ }⟩

end Prepare

end WordTemplate
