import WordTemplate.Proofs.Finishing
import WordTemplate.Proofs.Word.Listing
import WordTemplate.Proofs.Word.Shown

/-!
# What a finished document shows

The texts of directives are taken out when a document is finished. Nothing else that is done then changes what is
shown: insertion points go with empty elements or as attributes, drawings get numbers, and cells get empty paragraphs.

* `ShowsAs`: forests that show the same.
* `Displays`: what the texts of a scope show, with the steps of finishing.
* `Displays.finish`: all of them.
-/

namespace WordTemplate

open Xml Forest

/-! ## Forests that show the same -/

/-- What the texts of a forest are. -/
def textSigns (f : Forest Node) : List Sign :=
  (texts f).map Landmark.sign

@[simp] theorem textSigns_nil : textSigns nil = [] := rfl

@[simp] theorem textSigns_append (f g : Forest Node) : textSigns (f ++ g) = textSigns f ++ textSigns g := by
  simp [textSigns]

theorem textSigns_cons (node : Node) (cs rest : Forest Node) :
    textSigns (cons node cs rest) =
      (if node.label.isNamed Word.text then [.text node.label.marks (innerText (labels cs))] else textSigns cs) ++
        textSigns rest := by
  rw [textSigns, texts, List.map_append, apply_ite (List.map Landmark.sign)]
  rfl

/-- Whether a forest shows what another one shows. At most texts without characters are missing. -/
structure ShowsAs (f g : Forest Node) : Prop where
  outside : TextsOutside Label.isClosed (labels f) → TextsOutside Label.isClosed (labels g)
  textFree : (∀ l ∈ (labels f).toList, l.isNamed Word.text = false) →
    ∀ l ∈ (labels g).toList, l.isNamed Word.text = false
  innerText_eq : innerText (labels g) = innerText (labels f)
  sublist : (textSigns g).Sublist (textSigns f)
  shown_eq : shown (textSigns g) = shown (textSigns f)

/-- Whether a change of labels leaves their names and marks, and text, as they are. -/
structure Restyles (change : Label → Label) : Prop where
  name?_eq : ∀ l, (change l).name? = l.name?
  marks_eq : ∀ l, (change l).marks = l.marks
  text_eq : ∀ s, change (.text s) = .text s

section ShowsAs

variable {f f' g g' cs cs' rest rest' : Forest Node} {change : Label → Label} {key : String}

theorem restyles_id : Restyles id :=
  ⟨fun _ => rfl, fun _ => rfl, fun _ => rfl⟩

theorem restyles_setAttribute (h : Word.markAttribute ≠ key) (value : String) :
    Restyles (Label.setAttribute key value) :=
  ⟨fun _ => Label.name?_setAttribute, fun _ => Label.marks_setAttribute_ne h, fun _ => rfl⟩

theorem restyles_eraseAttribute (h : Word.markAttribute ≠ key) : Restyles (Label.eraseAttribute key) :=
  ⟨fun _ => Label.name?_eraseAttribute, fun _ => Label.marks_eraseAttribute_ne h, fun _ => rfl⟩

theorem Restyles.isNamed_eq (h : Restyles change) (l : Label) (name : String) :
    (change l).isNamed name = l.isNamed name := by
  rw [Label.isNamed, h.name?_eq, Label.isNamed]

theorem Restyles.isClosed_eq (h : Restyles change) (l : Label) : (change l).isClosed = l.isClosed := by
  rw [Label.isClosed, h.isNamed_eq, Label.isClosed]
  congr 2
  have hname := h.name?_eq l
  cases l with
  | text s => rw [h.text_eq]
  | element tag =>
    cases hc : change (.element tag) with
    | text s =>
      rw [hc] at hname
      cases hname
    | element tag' =>
      rw [hc] at hname
      rw [Label.isContent, Label.isContent, show tag'.name = tag.name from Option.some.inj hname]

theorem Restyles.innerText_eq (h : Restyles change) (l : Label) (cs : Forest Label) :
    innerText (tree (change l) cs) = innerText (tree l cs) := by
  have hname := h.name?_eq l
  cases l with
  | text s => rw [h.text_eq]
  | element tag =>
    cases hc : change (.element tag) with
    | text s =>
      rw [hc] at hname
      cases hname
    | element tag' => rfl

theorem innerText_cons (l : Label) (cs rest : Forest Label) :
    innerText (cons l cs rest) = innerText (tree l cs) ++ innerText rest := by
  cases l <;> simp [innerText, tree]

theorem innerText_append (f g : Forest Label) : innerText (f ++ g) = innerText f ++ innerText g := by
  induction f with
  | nil => simp [innerText]
  | cons l cs rest _ ih => rw [cons_append, innerText_cons, ih, innerText_cons l cs rest, String.append_assoc]

theorem innerText_tree_congr {l : Label} {cs cs' : Forest Label} (h : innerText cs' = innerText cs) :
    innerText (tree l cs') = innerText (tree l cs) := by
  cases l with
  | text s => rfl
  | element tag => simpa [innerText, tree] using h

theorem innerText_tree_nil {l : Label} (h : l.isElement = true) : innerText (tree l nil) = "" := by
  cases l with
  | text s => cases h
  | element tag => simp [innerText, tree]

theorem ShowsAs.refl (f : Forest Node) : ShowsAs f f :=
  ⟨id, id, rfl, .refl _, rfl⟩

theorem ShowsAs.append (h : ShowsAs f f') (h' : ShowsAs g g') : ShowsAs (f ++ g) (f' ++ g') where
  outside hout := by
    rw [labels_append, textsOutside_append] at hout ⊢
    exact ⟨h.outside hout.1, h'.outside hout.2⟩
  textFree hfree := by
    simp only [labels_append, toList_append, List.mem_append, or_imp, forall_and] at hfree ⊢
    exact ⟨h.textFree hfree.1, h'.textFree hfree.2⟩
  innerText_eq := by
    rw [labels_append, labels_append, innerText_append, innerText_append, h.innerText_eq, h'.innerText_eq]
  sublist := by
    rw [textSigns_append, textSigns_append]
    exact h.sublist.append h'.sublist
  shown_eq := by simp [h.shown_eq, h'.shown_eq]

/-- Changing a label, and what is below it. -/
theorem ShowsAs.tree (hc : Restyles change) (h : ShowsAs cs cs') (a : Node) :
    ShowsAs (tree a cs) (tree ⟨a.id, change a.label⟩ cs') where
  outside hout := by
    rw [labels_tree] at hout ⊢
    exact ⟨fun hclosed => h.textFree (hout.1 (hc.isClosed_eq a.label ▸ hclosed)), h.outside hout.2.1, trivial⟩
  textFree hfree := by
    simp only [labels_tree, toList_tree, List.forall_mem_cons, hc.isNamed_eq] at hfree ⊢
    exact ⟨hfree.1, h.textFree hfree.2⟩
  innerText_eq := by
    rw [labels_tree, labels_tree, hc.innerText_eq]
    exact innerText_tree_congr h.innerText_eq
  sublist := by
    simp only [Forest.tree, textSigns_cons, hc.isNamed_eq, hc.marks_eq, h.innerText_eq]
    refine List.Sublist.append ?_ (.refl _)
    split
    · exact .refl _
    · exact h.sublist
  shown_eq := by
    simp only [Forest.tree, textSigns_cons, hc.isNamed_eq, hc.marks_eq, h.innerText_eq, shown_append]
    split
    · rfl
    · rw [h.shown_eq]

theorem ShowsAs.cons (hcs : ShowsAs cs cs') (hrest : ShowsAs rest rest') (a : Node) :
    ShowsAs (cons a cs rest) (cons a cs' rest') :=
  (hcs.tree restyles_id a).append hrest

theorem ShowsAs.wrap {up : List (Frame Node)} (h : ShowsAs f g) : ShowsAs (wrap up f) (wrap up g) := by
  induction up generalizing f g with
  | nil => exact h
  | cons fr up ih => exact ih ((ShowsAs.refl fr.before).append (h.cons (.refl fr.after) fr.value))

/-- Another tree in the place of the first node that passes a test. -/
theorem ShowsAs.replace {p : Node → Bool} {put : Node → Forest Node → Forest Node}
    (h : ∀ a cs, ShowsAs (Forest.tree a cs) (put a cs)) (f : Forest Node) : ShowsAs f (f.replace p put) := by
  induction f with
  | nil => exact .refl _
  | cons a cs rest ihc ihr =>
    rw [replace_cons]
    split
    · exact (h a cs).append (.refl rest)
    split
    · exact ihc.cons (.refl rest) a
    · exact (ShowsAs.refl cs).cons ihr a

/-- A new element that is no text, with nothing in it. -/
theorem showsAs_of_nil (a : Node) (ha : a.label.isElement = true) (htext : a.label.isNamed Word.text = false) :
    ShowsAs nil (Forest.tree a nil) where
  outside _ := ⟨by simp [toList], trivial, trivial⟩
  textFree _ := by simpa [toList_tree, toList] using htext
  innerText_eq := innerText_tree_nil ha
  sublist := by simp [Forest.tree, textSigns_cons, htext]
  shown_eq := by simp [Forest.tree, textSigns_cons, htext]

/-- Taking out an element with nothing in it. -/
theorem showsAs_nil {a : Node} (ha : a.label.isElement = true) : ShowsAs (Forest.tree a nil) nil where
  outside _ := trivial
  textFree _ := by simp [toList]
  innerText_eq := (innerText_tree_nil ha).symm
  sublist := List.nil_sublist _
  shown_eq := by
    rw [Forest.tree, textSigns_cons]
    split <;> simp [Sign.shown, innerText]

end ShowsAs

/-! ## Scopes -/

/-- Whether the texts of a scope are of the form `P` and show `text`. -/
structure Displays (P : Sign → Prop) (d : Document) (root : NodeId) (text : List Char) : Prop where
  listed : Listed d root (texts (d.treeAt root))
  forall_sign : ∀ s ∈ textSigns (d.treeAt root), P s
  shown_eq : shown (textSigns (d.treeAt root)) = text

/-- Whether this is a text without a mark. -/
def Sign.IsUnmarked (s : Sign) : Prop :=
  ∃ content, s = .text [] content

section Displays

variable {P : Sign → Prop} {d d' : Document} {root n : NodeId} {text : List Char} {mute : List String}
  {ss : List Sign}

theorem Displays.wellFormed (h : Displays P d root text) : d.WellFormed :=
  h.listed.wellFormed

theorem Displays.isNamed_eq (h : Displays P d root text) : d.isNamed root Word.text = false := by
  obtain ⟨node, cs, htree, hname⟩ := h.listed.exists_eq
  rw [Document.isNamed, Document.name?, Document.label?, htree]
  exact hname

theorem Displays.showsAs (h : Displays P d root text) (hg : d.Gains d')
    (hs : ShowsAs (d.treeAt root) (d'.treeAt root)) : Displays P d' root text where
  listed := by
    have hroot := h.listed.mem_ids
    refine listed_texts hg.grows.wellFormed (hg.grows.mem_ids _ hroot) ?_ (hs.outside h.listed.outside)
    rw [hg.isNamed_eq hroot]
    exact h.isNamed_eq
  forall_sign s hmem := h.forall_sign s (hs.sublist.subset hmem)
  shown_eq := hs.shown_eq.trans h.shown_eq

/-- Where there are no landmarks there are no texts. -/
theorem Quiet.isNamed_text_eq {f : Forest Label} (h : Quiet f) :
    ∀ l ∈ f.toList, l.isNamed Word.text = false := by
  intro l hl
  have := h l hl
  rw [Label.isLandmark, Bool.or_eq_false_iff] at this
  exact this.2

theorem Sound.textsOutside {f : Forest Label} (h : Sound mute f) :
    TextsOutside (fun l => l.isNamed Word.text || l.isMute mute) f := by
  induction f with
  | nil => trivial
  | cons l cs rest ihc ihr =>
    refine ⟨fun hclosed => ?_, ihc h.2.2.1, ihr h.2.2.2⟩
    rcases Bool.or_eq_true _ _ ▸ hclosed with htext | hmute
    · exact (h.1 (by rw [Label.isLandmark, htext, Bool.or_true])).1.isNamed_text_eq
    · exact (h.2.1 hmute).2.isNamed_text_eq

theorem isMute_of_isClosed {l : Label} (h : l.isClosed = true) :
    (l.isNamed Word.text || l.isMute mute) = true := by
  rw [Label.isClosed, Bool.or_eq_true] at h
  rw [Bool.or_eq_true]
  refine h.imp_right fun hcontent => ?_
  cases l with
  | text s => rfl
  | element tag => exact Label.isMute_of_isProperty (by simpa [Label.isContent, Label.isProperty] using hcontent)

theorem Sound.outside {f : Forest Label} (h : Sound mute f) : TextsOutside Label.isClosed f :=
  h.textsOutside.mono fun _ => isMute_of_isClosed

/-- Without anchors there are no other signs than texts. -/
theorem textSigns_eq {f : Forest Node} (h : ∀ l ∈ (labels f).toList, l.isAnchor = false) :
    textSigns f = signs (labels f) := by
  induction f with
  | nil => rfl
  | cons node cs rest ihc ihr =>
    simp only [labels_cons, toList, List.mem_cons, List.mem_append] at h
    have hnode := h node.label (.inl rfl)
    rw [textSigns_cons, labels_cons, signs, ihr fun l hl => h l (.inr (.inr hl)), Label.isLandmark, hnode,
      Bool.false_or]
    by_cases htext : node.label.isNamed Word.text = true
    · rw [if_pos htext, if_pos htext, Sign.of, hnode]
      rfl
    · rw [if_neg htext, if_neg htext, ihc fun l hl => h l (.inr (.inl hl))]

/-- Changing labels. -/
theorem Displays.relabel {change : Label → Label} (h : Displays P d root text) (hc : Restyles change)
    (n : NodeId) : Displays P (d.relabel n change) root text := by
  refine h.showsAs ((Document.Gains.refl h.wellFormed).relabel n fun l _ => hc.name?_eq l) ?_
  rw [h.wellFormed.treeAt_relabel]
  exact .replace (fun a cs => (ShowsAs.refl cs).tree hc a) _

/-! ### Insertion points -/

/-- Taking out an element with nothing in it. -/
theorem Displays.detach {label : Label} (h : Displays P d root text) (hlabel : d.label? n = some label)
    (helement : label.isElement = true) (hempty : (d.children n).isEmpty = true) :
    Displays P (d.detach n) root text := by
  refine h.showsAs ((Document.Gains.refl h.wellFormed).detach n) ?_
  rcases detach_cases h.wellFormed root n with he | ⟨fr, up, l, a, as, r, rfl, ht, hd⟩
  · rw [he]
    exact .refl _
  · have hat := h.wellFormed.treeAt_of_spot ht
    obtain rfl : as = nil := by
      rw [Document.children, hat] at hempty
      cases as with
      | nil => rfl
      | cons => cases hempty
    obtain rfl : a.label = label := by
      rw [Document.label?, hat] at hlabel
      exact Option.some.inj hlabel
    rw [ht, hd]
    refine ShowsAs.wrap ((ShowsAs.refl l).append ?_)
    exact (showsAs_nil helement).append (.refl r)

theorem Displays.removeInsertionPoint (h : Displays P d root text) (hn : d.isAnchor n = false) :
    Displays P (d.removeInsertionPoint n) root text := by
  rw [Document.removeInsertionPoint]
  split
  · exact h
  · next id hid =>
    obtain ⟨label, hlabel, hid⟩ := Option.bind_eq_some_iff.mp hid
    have helement : label.isElement = true := by
      cases label with
      | text s => cases hid
      | element tag => rfl
    rw [hn, Bool.false_or]
    split
    · next hempty => exact h.detach hlabel helement hempty
    · exact h.relabel (restyles_eraseAttribute (by decide)) n

theorem label?_removeInsertionPoint {m : NodeId} (wf : d.WellFormed) (hm : m ≠ n) :
    (d.removeInsertionPoint n).label? m = d.label? m := by
  rw [Document.removeInsertionPoint]
  split
  · rfl
  split
  · exact label?_detach wf n m
  · exact wf.label?_relabel_ne hm _

theorem Displays.removeInsertionPoints (h : Displays P d root text)
    (hnone : ∀ l ∈ (d.labelsAt root).toList, l.isAnchor = false) :
    Displays P (d.removeInsertionPoints root) root text := by
  -- A node that is still to come has the label that it had at first.
  have key : ∀ (ns : List NodeId) (d : Document), Displays P d root text → ns.Nodup →
      (∀ n ∈ ns, d.isAnchor n = false) → Displays P (ns.foldl Document.removeInsertionPoint d) root text := by
    intro ns
    induction ns with
    | nil => exact fun _ h _ _ => h
    | cons n ns ih =>
      intro d h hnd hns
      rw [List.forall_mem_cons] at hns
      rw [List.nodup_cons] at hnd
      refine ih _ (h.removeInsertionPoint hns.1) hnd.2 fun m hm => ?_
      have hne : m ≠ n := by
        rintro rfl
        exact hnd.1 hm
      rw [Document.isAnchor, label?_removeInsertionPoint h.wellFormed hne]
      exact hns.2 m hm
  obtain ⟨node, cs, htree, -⟩ := h.listed.exists_eq
  refine key _ d h ?_ fun n hn => ?_
  · have hnd := h.wellFormed.nodup_treeAt root
    rw [htree, ids_tree, List.nodup_cons] at hnd
    rw [Document.insertionNodes, Document.nodesBelow, htree]
    exact hnd.2.sublist (List.filter_sublist.map _)
  · obtain ⟨m, hm, rfl⟩ := List.mem_map.mp hn
    have hbelow := List.mem_of_mem_filter hm
    rw [Document.isAnchor, h.wellFormed.label?_of_mem_nodesBelow hbelow]
    refine hnone m.label ?_
    rw [Document.nodesBelow, htree] at hbelow
    rw [Document.labelsAt, htree, labels_tree, toList_tree, labels, toList_map]
    exact List.mem_cons_of_mem _ (List.mem_map_of_mem hbelow)

/-! ### Texts of directives -/

theorem Listed.mark?_eq {u v : List Landmark} {x : Landmark} {marks : List String} {s : String}
    (h : Listed d root (u ++ x :: v)) (hx : x.sign = .text marks s) : d.mark? x.node = markKind? marks := by
  rw [markKind?, ← h.attribute?_mark hx, Document.attribute?, Option.bind_assoc]
  rfl

/-- Taking out the texts of directives leaves the others. -/
theorem Listed.removeDirectiveTexts {u v : List Landmark} (h : Listed d root (u ++ v))
    (hv : ∀ x ∈ v, x.sign.IsFilled) :
    ∃ v', Listed ((v.map Landmark.node).foldl (fun d n => (Document.removeDirectiveText ([], d) n).2) d) root
        (u ++ v') ∧ (∀ x ∈ v', x.sign.IsUnmarked) ∧
      shown (v'.map Landmark.sign) = shown (v.map Landmark.sign) := by
  induction v generalizing d u with
  | nil => exact ⟨[], h, by simp, rfl⟩
  | cons x v ih =>
    rw [List.forall_mem_cons] at hv
    obtain ⟨_, _, _, a, as, _, hat⟩ := h.exists_textAt
    have hsign : x.sign = .text a.label.marks (innerText (labels as)) := by rw [hat.eq]
    have hmark := h.mark?_eq hsign
    have hfilled := hv.1
    rw [hsign] at hfilled
    rcases hfilled with hmarks | ⟨kind, hkind, hmarks⟩ <;> rw [hmarks] at hsign hmark
    · obtain ⟨v', hlisted, hunmarked, hshown⟩ := ih (u := u ++ [x]) (by simpa using h) hv.2
      have hstep : (Document.removeDirectiveText ([], d) x.node).2 = d := by
        simp [Document.removeDirectiveText, hmark, markKind?]
      refine ⟨x :: v', by simpa [hstep] using hlisted, ?_, ?_⟩
      · exact List.forall_mem_cons.mpr ⟨⟨_, hsign⟩, hunmarked⟩
      · simp [hshown]
    · obtain ⟨v', hlisted, hunmarked, hshown⟩ := ih (isolable_listed.detachFromRun h) hv.2
      have hstep : (Document.removeDirectiveText ([], d) x.node).2 = d.detachFromRun x.node := by
        rw [markKind?, List.head?_cons, Option.bind_some, Directive.Kind.ofName?_name] at hmark
        rw [Document.removeDirectiveText, hmark]
        cases kind <;> first | rfl | exact absurd rfl hkind
      refine ⟨v', by simpa [hstep] using hlisted, hunmarked, ?_⟩
      simp [hshown, hsign, Sign.shown]

theorem Displays.removeDirectiveTexts (h : Displays Sign.IsFilled d root text) :
    Displays Sign.IsUnmarked (Document.removeDirectiveTexts false d root) root text := by
  have hsign : ∀ x ∈ texts (d.treeAt root), x.sign.IsFilled := fun x hx =>
    h.forall_sign _ (List.mem_map_of_mem hx)
  obtain ⟨v', hlisted, hunmarked, hshown⟩ := Listed.removeDirectiveTexts (u := []) h.listed hsign
  rw [← filter_isNamed_text h.listed.outside, ← foldl_removeDirectiveText _ []] at hlisted
  have hlisted' : Listed (Document.removeDirectiveTexts false d root) root v' := hlisted
  have hv' : textSigns ((Document.removeDirectiveTexts false d root).treeAt root) = v'.map Landmark.sign := by
    rw [textSigns, hlisted'.texts_eq]
  refine ⟨by rw [hlisted'.texts_eq]; exact hlisted', fun s hs => ?_, ?_⟩
  · rw [hv'] at hs
    obtain ⟨x, hx, rfl⟩ := List.mem_map.mp hs
    exact hunmarked x hx
  · rw [hv', hshown]
    exact h.shown_eq

/-! ### Drawings and cells -/

theorem Displays.renumber (h : Displays P d root text) (found : List (NodeId × Nat)) (used seen : List Nat)
    (next : Nat) : Displays P (Document.renumber used seen next d found) root text := by
  induction found generalizing d used seen next with
  | nil => exact h
  | cons drawing found ih =>
    rw [Document.renumber]
    split
    · exact ih (h.relabel (restyles_setAttribute (by decide) _) drawing.1) ..
    · exact ih h ..

theorem Displays.ensureParagraph (h : Displays P d root text) (hn : n ∈ d.ids) :
    d.Gains (d.ensureParagraph n) ∧ Displays P (d.ensureParagraph n) root text := by
  by_cases hnone : d.paragraphsIn n = []
  · have hfills := Document.fills_ensureParagraph h.wellFormed hn hnone
    refine ⟨hfills.gains, h.showsAs hfills.gains ?_⟩
    rw [hfills.treeAt_eq root h.listed.mem_ids]
    refine .replace (fun a cs => ?_) _
    have happend := (ShowsAs.refl cs).append (showsAs_of_nil ⟨d.freshId, .element ⟨Word.paragraph, []⟩⟩ rfl rfl)
    rw [append_nil] at happend
    exact happend.tree restyles_id a
  · have hany : (d.elementChildren n).any (d.isNamed · Word.paragraph) = true := by
      simpa [Document.paragraphsIn, List.filter_eq_nil_iff] using hnone
    rw [Document.ensureParagraph, if_pos hany]
    exact ⟨.refl h.wellFormed, h⟩

theorem Displays.ensureCellParagraphs (h : Displays P d root text) :
    Displays P (d.ensureCellParagraphs root) root text := by
  have key : ∀ (ns : List NodeId) (d : Document), Displays P d root text → (∀ n ∈ ns, n ∈ d.ids) →
      Displays P (ns.foldl Document.ensureParagraph d) root text := by
    intro ns
    induction ns with
    | nil => exact fun _ h _ => h
    | cons n ns ih =>
      intro d h hns
      rw [List.forall_mem_cons] at hns
      obtain ⟨hg, h⟩ := h.ensureParagraph hns.1
      exact ih _ h fun m hm => hg.grows.mem_ids m (hns.2 m hm)
  refine key _ d h fun n hn => ?_
  obtain ⟨node, hnode, rfl⟩ := List.mem_map.mp hn
  exact h.wellFormed.mem_ids_of_label? (h.wellFormed.label?_of_mem_nodesBelow (List.mem_of_mem_filter hnode))

/-! ### All of it -/

/-- Finishing a document takes out the texts of directives, and nothing else of what is shown. -/
theorem Displays.finish (h : Displays Sign.IsFilled d root text)
    (hnone : ∀ l ∈ (d.labelsAt root).toList, l.isAnchor = false) :
    Displays Sign.IsUnmarked (d.finish false root) root text :=
  ((h.removeInsertionPoints hnone).removeDirectiveTexts.renumber ..).ensureCellParagraphs

/-- If there are no marks, all of the text is shown. -/
theorem Displays.ofDocument_text (h : Displays Sign.IsUnmarked d root text) :
    (FlatText.ofDocument d root).text = String.ofList text := by
  rw [FlatText.text, h.listed.ofDocument_eq, map_char_flatEntries, ← h.shown_eq, textSigns]
  have hsigns : ∀ x ∈ texts (d.treeAt root), x.sign.IsUnmarked := fun x hx =>
    h.forall_sign _ (List.mem_map_of_mem hx)
  congr 1
  generalize texts (d.treeAt root) = ls at hsigns
  induction ls with
  | nil => rfl
  | cons x ls ih =>
    rw [List.forall_mem_cons] at hsigns
    obtain ⟨content, hx⟩ := hsigns.1
    rw [flatChars_cons, List.map_cons, shown_cons, ih hsigns.2, hx]
    rfl

/-- What an expanded scope displays. -/
theorem Scoped.displays (h : Scoped d root mute ss) (hids : anchorIds ss = []) (hss : ∀ s ∈ ss, s.IsFilled) :
    Displays Sign.IsFilled d root (shown ss) := by
  have hnone := isAnchor_eq_false_of_anchorIds h.sound (h.signs_eq ▸ hids)
  have hsigns : textSigns (d.treeAt root) = ss := (textSigns_eq hnone).trans h.signs_eq
  refine ⟨listed_texts h.wellFormed h.mem_ids ?_ h.sound.outside, hsigns ▸ hss, hsigns ▸ rfl⟩
  obtain ⟨node, cs, htree, hnode⟩ := h.exists_eq
  rw [Label.isLandmark, Bool.or_eq_false_iff] at hnode
  rw [Document.isNamed, Document.name?, Document.label?, htree]
  exact hnode.2

end Displays

end WordTemplate
