import WordTemplate.Proofs.Block.Nesting
import WordTemplate.Proofs.Block.RowContents
import WordTemplate.Proofs.Block.RowGroups
import WordTemplate.Proofs.Processing.Calls

/-!
# Templates with a block around rows

A document is considered whose directives make one block around rows of a table, with other blocks in paragraphs of
that table. When its blocks have been read, the table is left without these rows, and between the other ones are
the bounds of the block.

* `AroundRows`, `InParagraphs`: the documents.
* `AroundRows.exists_taken`: what is left of the table when the contents of the blocks are taken out.
* `RowsOut.below_of_resolve`: the anchor is found only if the table is in the scope.
* `RowsTaken.rowBlock`: the block can be expanded when values have been filled in.
-/

namespace WordTemplate

open Xml Forest Binding Xml.Document

/-! ## Lists with other elements in between -/

theorem exists_of_filter_eq {α : Type} {p : α → Bool} {l xs ys : List α} {a : α}
    (h : l.filter p = xs ++ a :: ys) : ∃ u v, l = u ++ a :: v ∧ u.filter p = xs ∧ v.filter p = ys := by
  obtain ⟨u, v, rfl, hu, hv⟩ := List.filter_eq_append_iff.mp h
  obtain ⟨u', v', rfl, hu', -, hv'⟩ := List.filter_eq_cons_iff.mp hv
  exact ⟨u ++ u', v', by simp, by rw [List.filter_append, hu, List.filter_eq_nil_iff.mpr hu', List.append_nil], hv'⟩

theorem exists_of_getElem?_filter {α : Type} {p : α → Bool} {l : List α} {i : Nat} {a : α}
    (h : (l.filter p)[i]? = some a) : ∃ u v, l = u ++ a :: v ∧ u.filter p = (l.filter p).take i ∧
      v.filter p = (l.filter p).drop (i + 1) := by
  obtain ⟨hi, rfl⟩ := List.getElem?_eq_some_iff.mp h
  refine exists_of_filter_eq ?_
  rw [← List.drop_eq_getElem_cons, List.take_append_drop]

/-- The elements of a list from one with `p` to another. -/
theorem exists_between {α : Type} {p : α → Bool} {l : List α} {i j : Nat} {a b : α}
    (ha : (l.filter p)[i]? = some a) (hb : (l.filter p)[j]? = some b) (hle : i ≤ j) :
    ∃ u m v, l = u ++ (m ++ v) ∧ m.head? = some a ∧ m.getLast? = some b ∧ u.filter p = (l.filter p).take i ∧
      m.filter p = ((l.filter p).take (j + 1)).drop i ∧ v.filter p = (l.filter p).drop (j + 1) := by
  obtain ⟨u, m, v, hl, hhead, hlast, hu, hv⟩ : ∃ u m v, l = u ++ (m ++ v) ∧ m.head? = some a ∧
      m.getLast? = some b ∧ u.filter p = (l.filter p).take i ∧ v.filter p = (l.filter p).drop (j + 1) := by
    obtain ⟨u, v, hl, hu, hv⟩ := exists_of_getElem?_filter ha
    rcases Nat.eq_or_lt_of_le hle with rfl | hlt
    · obtain rfl : a = b := Option.some.inj (ha.symm.trans hb)
      exact ⟨u, [a], v, hl, rfl, rfl, hu, hv⟩
    · -- The other element is among those behind the first one.
      have hlater : (v.filter p)[j - (i + 1)]? = some b := by
        rw [hv, List.getElem?_drop, ← hb]
        congr 1
        omega
      obtain ⟨u', v', hl', -, hv'⟩ := exists_of_getElem?_filter hlater
      refine ⟨u, a :: (u' ++ [b]), v', by rw [hl, hl']; simp, rfl, by simp [List.getLast?_cons], hu, ?_⟩
      rw [hv', hv, List.drop_drop]
      congr 1
      omega
  refine ⟨u, m, v, hl, hhead, hlast, hu, ?_, hv⟩
  -- What is left of all of them is in between.
  have hall : (l.filter p).take (j + 1) ++ (l.filter p).drop (j + 1) =
      ((l.filter p).take i ++ m.filter p) ++ (l.filter p).drop (j + 1) := by
    rw [List.take_append_drop, ← hu, ← hv, List.append_assoc, ← List.filter_append, ← List.filter_append, ← hl]
  have hi := (List.getElem?_eq_some_iff.mp ha).1
  rw [List.append_cancel_right hall, List.drop_left' (by rw [List.length_take]; omega)]

/-! ## Old nodes -/

namespace Xml.Document

variable {d₀ d : Document} {R : NodeId → Prop} {m n : NodeId}

/-- What is above an old node was above it before. -/
theorem Retouches.isBelow_of (h : d₀.Retouches R d) (wf : d₀.WellFormed) (hm : m ∈ d₀.ids) (hn : d.IsBelow m n) :
    d₀.IsBelow m n := by
  have hstep : ∀ {c p}, c ∈ d₀.ids → d.parent? c = some p → d₀.parent? c = some p := fun {c p} hc hp => by
    rcases h.parent?_eq c hc with he | ⟨-, he⟩ <;> rw [he] at hp
    · exact hp
    · cases hp
  induction hn using Relation.TransGen.head_induction_on with
  | single hp => exact .single (hstep hm hp)
  | head hp _ ih =>
    have hp := hstep hm hp
    exact .head hp (ih (wf.mem_ids_of_children (wf.parent?_eq_some_iff.mp hp)))

/-- An attribute that no label has. -/
theorem WellFormed.attribute?_eq_none_of_labels {key : String} (wf : d.WellFormed)
    (h : ∀ l ∈ (labels d.trees).toList, l.attribute? key = none) (n : NodeId) : d.attribute? n key = none := by
  by_cases hn : n ∈ d.ids
  · obtain ⟨node, hnode, rfl⟩ := List.mem_map.mp hn
    rw [attribute?, wf.label?_of_mem hnode]
    exact h _ (mem_labels_iff.mpr ⟨node, hnode, rfl⟩)
  · exact wf.attribute?_eq_none hn _

/-- What has a text below it is an element, and neither a text nor formatting. -/
theorem WellFormed.isSolid_of_text (wf : d.WellFormed)
    (htexts : TextsOutside (fun l => l.isNamed Word.text || l.isMute []) (labels d.trees))
    (hm : d.isNamed m Word.text = true) (hn : d.IsBelow m n) : d.IsSolid n := by
  obtain ⟨node, hnode, rfl⟩ := List.mem_map.mp (wf.mem_descendants_iff_isBelow.mpr hn)
  obtain ⟨p, -, hp⟩ := Relation.TransGen.tail'_iff.mp hn
  have hmem := wf.mem_ids_of_children (wf.parent?_eq_some_iff.mp hp)
  obtain ⟨up, l, a, as, r, htrees, rfl⟩ := exists_spot hmem
  have htree := treeAt_eq wf htrees
  have hlabel := (wf.label?_of_tree htree).1
  -- The text is among what is below the node.
  have hbelow : node ∈ as.toList := by
    rw [nodesBelow, htree] at hnode
    exact hnode
  rw [htrees] at htexts
  have hspot := (textsOutside_append.mp (labels_append _ _ ▸ TextsOutside.of_wrap htexts)).2
  have hopen : (a.label.isNamed Word.text || a.label.isMute []) ≠ true := fun hclosed => by
    rw [isNamed_of_label? (wf.label?_of_mem_nodesBelow hnode)] at hm
    have hnone := hspot.1 hclosed node.label (by rw [toList_map]; exact List.mem_map_of_mem hbelow)
    rw [hm] at hnone
    cases hnone
  rw [IsSolid, name?, hlabel]
  cases hl : a.label with
  | text content => simp [hl, Label.isMute, Label.isElement] at hopen
  | element tag =>
    refine ⟨tag.name, rfl, ?_, ?_⟩
    · rw [ne_eq, Bool.or_eq_true, not_or] at hopen
      simpa [hl, Label.isMute, Label.isProperty, Label.isElement] using hopen.2
    · rintro he
      simp [hl, Label.isNamed, Label.name?, he] at hopen

end Xml.Document

/-! ## Templates -/

variable {settings : Settings} {d : Document} {root T n : NodeId} {i j : Nat} {o c : Marker} {inner : Forest Block}

/-- Whether the directives in `d` make one block with other blocks `inner` within it. It is around the rows of the
table `T` from number `i` to number `j`, and has no separators. -/
structure AroundRows (settings : Settings) (root : NodeId) (d : Document) (T : NodeId) (i j : Nat) (o c : Marker)
    (inner : Forest Block) : Prop where
  wellFormed : d.WellFormed
  pristine : Pristine [] (labels d.trees)
  table : d.isNamed T Word.table = true
  below : d.IsBelow T root
  nest_eq : Block.nest (prepare settings root d).1 =
    .ok (tree ⟨.collectionStart, o, c⟩ (tree ⟨.content, o, c⟩ inner))
  le : i ≤ j
  spans : ∃ a b, (d.childrenNamed T Word.row)[i]? = some a ∧ (d.childrenNamed T Word.row)[j]? = some b ∧
    Block.Spans (prepare settings root d).2 o.node c.node a b

/-- Whether each of the blocks, with its sections, is in one paragraph with `G`. -/
def InParagraphs (G : NodeId → Prop) (d : Document) (inner : Forest Block) : Prop :=
  ∀ x ∈ inner.toList, ∃ P, d.isNamed P Word.paragraph = true ∧ G P ∧
    d.IsBelow x.start.node P ∧ d.IsBelow x.stop.node P

namespace AroundRows

variable (h : AroundRows settings root d T i j o c inner)
include h

theorem retouches : d.Retouches (fun _ => True) (prepare settings root d).2 :=
  (prepare_retouches settings root h.wellFormed).1

theorem wellFormed_prepare : (prepare settings root d).2.WellFormed :=
  h.retouches.grows.wellFormed

theorem mem_ids : T ∈ d.ids :=
  h.wellFormed.mem_ids_of_isNamed h.table

theorem isNamed_prepare : (prepare settings root d).2.isNamed T Word.table = true :=
  (h.retouches.isNamed_eq h.mem_ids _).trans h.table

theorem childrenNamed_eq :
    (prepare settings root d).2.childrenNamed T Word.row = d.childrenNamed T Word.row :=
  h.retouches.childrenNamed_eq T h.mem_ids (isNamed_eq_false_of_ne h.table (by decide)) _ (by simp)

theorem attribute?_eq (n : NodeId) : d.attribute? n Word.insertionAttribute = none :=
  h.wellFormed.attribute?_eq_none_of_labels h.pristine.insertion_eq n

theorem attribute?_prepare (n : NodeId) :
    (prepare settings root d).2.attribute? n Word.insertionAttribute = none :=
  (h.retouches.attribute?_eq n).trans (h.attribute?_eq n)

/-- There is a text below the table. -/
theorem exists_text : ∃ t, d.isNamed t Word.text = true ∧
    ∀ n, n = T ∨ (prepare settings root d).2.IsBelow T n → d.IsBelow t n := by
  have wf := h.wellFormed_prepare
  obtain ⟨a, b, ha, hb, hspans⟩ := h.spans
  have hrow : a ∈ (prepare settings root d).2.children T := by
    have hmem := List.mem_of_getElem? ha
    rw [← h.childrenNamed_eq] at hmem
    exact (mem_childrenNamed.mp hmem).1
  have hstart : (prepare settings root d).2.IsBelow o.node a := by
    cases hspans with
    | rows _ hstart _ => exact hstart
    | cells _ hx _ _ hstart _ =>
      exact hstart.trans (.single (wf.parent?_eq_some_iff.mpr (mem_childrenNamed.mp hx).1))
  have hbeside := (Block.bounds_nest (prepare_retouches settings root h.wellFormed).2 h.nest_eq
    ⟨.collectionStart, o, c⟩ (by simp [tree, toList])).1
  obtain ⟨p, hp, hrest⟩ := Relation.TransGen.head'_iff.mp hstart
  obtain ⟨t, ht, htext⟩ := hbeside.parent p hp
  refine ⟨t, htext, fun n hn => ?_⟩
  -- The parent of the directive is the row or below it.
  have hrowT : (prepare settings root d).2.IsBelow p T := by
    have hup : (prepare settings root d).2.IsBelow a T := .single (wf.parent?_eq_some_iff.mpr hrow)
    rcases Relation.reflTransGen_iff_eq_or_transGen.mp hrest with rfl | hbelow
    · exact hup
    · exact IsBelow.trans hbelow hup
  have hpn : (prepare settings root d).2.IsBelow p n := by
    rcases hn with rfl | hn
    · exact hrowT
    · exact hrowT.trans hn
  exact .head (h.wellFormed.parent?_eq_some_iff.mpr ht)
    (h.retouches.isBelow_of h.wellFormed (h.wellFormed.mem_ids_of_children ht) hpn)

theorem isSolid (hn : n = T ∨ (prepare settings root d).2.IsBelow T n) :
    (prepare settings root d).2.IsSolid n := by
  obtain ⟨t, htext, hbelow⟩ := h.exists_text
  have hsolid := h.wellFormed.isSolid_of_text h.pristine.texts htext (hbelow n hn)
  rwa [IsSolid, h.retouches.name?_eq n (hsolid.mem_ids h.wellFormed)]

theorem not_text (hn : n = T ∨ (prepare settings root d).2.IsBelow T n) :
    (prepare settings root d).2.isNamed n Word.text = false := by
  obtain ⟨name, hname, -, hne⟩ := h.isSolid hn
  rw [isNamed, hname]
  simpa using hne

/-- The nodes from the table up to the root. -/
def way (settings : Settings) (root : NodeId) (d : Document) (T n : NodeId) : Prop :=
  (n = T ∨ (prepare settings root d).2.IsBelow T n) ∧ (prepare settings root d).2.IsBelow n root

theorem upright (hbelow : (prepare settings root d).2.IsBelow T root) :
    Upright (way settings root d T) root T (prepare settings root d).2 :=
  upright_of_isBelow h.wellFormed_prepare h.isNamed_prepare hbelow (h.not_text (.inr hbelow))
    (fun _ hn _ => h.isSolid hn) h.attribute?_prepare

end AroundRows

/-! ## The rows have been taken out -/

namespace Block.Emptied

variable {d d' : Document} {S : NodeId → Prop} {l r ns : List NodeId} {first last : NodeId}
  (h : Emptied d d' T l r first last)
include h

theorem outline_eq (hn : n ∈ d.children T) (hrow : d.isNamed n Word.row = true) : d'.outline n = d.outline n :=
  outline_congr (h.label?_eq n hn) (h.row n hn hrow) (h.cell n hn hrow)

theorem isNamed_eq (hn : n ∈ d.children T) (name : String) : d'.isNamed n name = d.isNamed n name := by
  rw [isNamed_eq_any, isNamed_eq_any, h.label?_eq n hn]

theorem rowsAmong_eq (hns : ∀ n ∈ ns, n ∈ d.children T) : d'.rowsAmong ns = d.rowsAmong ns :=
  List.filter_congr fun n hn => h.isNamed_eq (hns n hn) _

/-- If there were no insertion points, those children of the table that were there have none. -/
theorem plainRows (hnone : ∀ n, d.attribute? n Word.insertionAttribute = none)
    (hns : ∀ n ∈ ns, n ∈ d.children T) : PlainRows d' ns := fun n hn => by
  have hmem := hns n hn
  refine ⟨?_, fun hrow c hc => ?_⟩
  · rw [attribute?, h.label?_eq n hmem]
    exact hnone n
  · have hrow := (h.isNamed_eq hmem _).symm.trans hrow
    rw [h.row n hmem hrow] at hc
    rw [attribute?, h.cell n hmem hrow c hc]
    exact hnone c

theorem upright (hup : Upright S root T d) (hS : ∀ n, S n → n = T ∨ d.IsBelow T n) : Upright S root T d' := by
  have hsame := fun n hn => h.above n (hup.mem_ids hn) (hS n hn)
  refine hup.congr h.grows.wellFormed (fun n hn => ?_) (fun n hn => (hsame n hn).2) fun n hn => ?_
  · rcases hn with hn | rfl
    · rw [name?, name?, (hsame n hn).1]
    · rw [name?, name?, (h.above n hup.root_mem_ids (.inr hup.below)).1]
  · rw [attribute?, (hsame n hn).1]
    exact hup.plain n hn

variable (wf : d.WellFormed)
include wf

/-- What is above the table was above it before. -/
theorem isBelow_of (hT : T ∈ d.ids) (hn : d'.IsBelow T n) : d.IsBelow T n := by
  induction hn with
  | single hp => exact .single ((h.above T hT (.inl rfl)).2 ▸ hp)
  | @tail m n _ hp ih =>
    obtain ⟨q, -, hq⟩ := Relation.TransGen.tail'_iff.mp ih
    have hm := wf.mem_ids_of_children (wf.parent?_eq_some_iff.mp hq)
    exact .tail ih ((h.above m hm (.inr ih)).2 ▸ hp)

theorem not_mem_treeAt (hT : T ∈ d.ids) (hn : ¬ d.IsBelow T n) (hne : n ≠ T) : T ∉ ids (d'.treeAt n) := fun hmem =>
  hn (h.isBelow_of wf hT (h.grows.wellFormed.mem_descendants_iff_isBelow.mp
    (h.grows.wellFormed.mem_descendants_iff.mpr ⟨hmem, Ne.symm hne⟩)))

end Block.Emptied

/-- How the document is when the contents of a block around rows of `T`, and of the blocks within it, have been taken
out: `prepared` is the document before. -/
structure RowsOut (T : NodeId) (prepared d : Document) (o c : Marker) (t t' : Block.Template)
    (I : Forest Block.Template) (l r : List NodeId) (first last : NodeId) : Prop where
  plain : ∀ n, prepared.attribute? n Word.insertionAttribute = none
  emptied : Block.Emptied prepared d T l r first last
  children_eq : prepared.children T = l ++ (t'.content ++ r)
  detached : Detached d (tree t (tree t' I))
  bounds : ∃ a e, RowBounds d t.content t'.number a e
  block_eq : t.block = ⟨.collectionStart, o, c⟩
  number_eq : t.number = 0
  section_eq : t'.block = ⟨.content, o, c⟩

/-- The same if the table is below `root`, and `S` is the way from one to the other. -/
structure RowsTaken (S : NodeId → Prop) (root T : NodeId) (prepared d : Document) (o c : Marker)
    (t t' : Block.Template) (I : Forest Block.Template) (l r : List NodeId) (first last : NodeId) : Prop
    extends RowsOut T prepared d o c t t' I l r first last where
  upright : Upright S root T prepared
  above : ∀ n, S n → n = T ∨ prepared.IsBelow T n

namespace RowsOut

variable {prepared d d' : Document} {R : NodeId → Prop} {t t' : Block.Template} {I : Forest Block.Template}
  {l r : List NodeId} {first last x : NodeId} (h : RowsOut T prepared d o c t t' I l r first last)
include h

theorem kind_eq : t.kind = .collectionStart := by
  rw [Block.Template.kind, h.block_eq]

/-- The anchor of the block is in the table. -/
theorem eq_first (hd : d.Retouches R d') (hx : t.anchor.resolve? d' root = some x) : x = first := by
  obtain ⟨node, hnode, rfl⟩ := Option.map_eq_some_iff.mp hx
  have hon := List.find?_some hnode
  have hl := hd.grows.wellFormed.label?_of_mem_treeAt (List.mem_of_find?_eq_some hnode)
  have hattribute : d.attribute? node.id Word.insertionAttribute = some (Block.startPoint .collectionStart 0).id := by
    rw [← hd.attribute?_eq, attribute?, hl]
    simpa [InsertionPoint.isOn, Block.Template.anchor, h.kind_eq, h.number_eq] using hon
  obtain ⟨lbl, hlbl, hattribute⟩ := Option.bind_eq_some_iff.mp hattribute
  exact h.emptied.eq_first node.id lbl hlbl fun hno => hno hattribute

/-- So if it is found, the table is there. -/
theorem below_of_resolve (wf : prepared.WellFormed) (hT : T ∈ prepared.ids) (hroot : root ∈ prepared.ids)
    (hne : T ≠ root) (hd : d.Retouches R d') (hx : t.anchor.resolve? d' root = some x) : prepared.IsBelow T root := by
  have wf' := hd.grows.wellFormed
  have hmem : x ∈ ids (d'.treeAt root) := by
    obtain ⟨node, hnode, rfl⟩ := Option.map_eq_some_iff.mp hx
    exact List.mem_map_of_mem (List.mem_of_find?_eq_some hnode)
  have he := h.eq_first hd hx
  have hxroot : x ≠ root := by
    rintro rfl
    exact h.emptied.first_not_mem (he ▸ hroot)
  have hbelow : d'.IsBelow x root :=
    wf'.mem_descendants_iff_isBelow.mp (wf'.mem_descendants_iff.mpr ⟨hmem, hxroot⟩)
  have hparent : d.parent? first = some T :=
    h.emptied.grows.wellFormed.parent?_eq_some_iff.mpr (by simp [h.emptied.children_eq])
  obtain ⟨p, hp, hrest⟩ := Relation.TransGen.head'_iff.mp (hd.isBelow_of h.emptied.grows.wellFormed
    (h.emptied.grows.wellFormed.mem_ids_of_label? h.emptied.label?_first) (he ▸ hbelow))
  obtain rfl : p = T := Option.some.inj (hp.symm.trans hparent)
  rcases Relation.reflTransGen_iff_eq_or_transGen.mp hrest with he | hbelow
  · exact absurd he.symm hne
  · exact h.emptied.isBelow_of wf hT hbelow

end RowsOut

namespace RowsTaken

variable {prepared d d' : Document} {S : NodeId → Prop} {t t' : Block.Template} {I : Forest Block.Template}
  {l r : List NodeId} {first last x : NodeId} (h : RowsTaken S root T prepared d o c t t' I l r first last)
include h

theorem wellFormed : d.WellFormed :=
  h.emptied.grows.wellFormed

theorem mem_ids : T ∈ prepared.ids :=
  h.upright.mem_ids h.upright.start

theorem upright_taken : Upright S root T d :=
  h.emptied.upright h.upright h.above

/-- The table is not in the contents. -/
theorem not_mem_treeAt (hx : x ∈ t.content ++ t'.content) : T ∉ ids (d.treeAt x) := by
  have wf := h.upright.wellFormed
  have hnot : ¬ (x = T ∨ prepared.IsBelow T x) := by
    rcases List.mem_append.mp hx with hx | hx
    · -- The bounds of the section have insertion points.
      intro habove
      have hmem : x ∈ prepared.ids := by
        rcases habove with rfl | hbelow
        · exact h.mem_ids
        · obtain ⟨q, -, hq⟩ := Relation.TransGen.tail'_iff.mp hbelow
          exact wf.mem_ids_of_children (wf.parent?_eq_some_iff.mp hq)
      obtain ⟨a, e, hb⟩ := h.bounds
      have hmark : d.attribute? x Word.insertionAttribute ≠ none := by
        rw [hb.content_eq] at hx
        rcases List.mem_cons.mp hx with rfl | hx
        · exact attribute?_ne_none hb.label?_first rfl
        · exact List.mem_singleton.mp hx ▸ attribute?_ne_none hb.label?_last rfl
      rw [attribute?, (h.emptied.above x hmem habove).1] at hmark
      exact hmark (h.plain x)
    · have hmem : x ∈ prepared.children T := by simp [h.children_eq, hx]
      rintro (rfl | hbelow)
      · exact wf.not_mem_children_self _ hmem
      · exact wf.not_isBelow_self _ (IsBelow.trans hbelow (.single (wf.parent?_eq_some_iff.mpr hmem)))
  rw [not_or] at hnot
  exact h.emptied.not_mem_treeAt wf h.mem_ids hnot.2 hnot.1

theorem detached_contents : Detached d (tree t (tree t' nil)) := fun u hu =>
  h.detached u (by simp [tree, toList] at hu ⊢; tauto)

/-- What is above the table is not in the contents. -/
theorem not_inContents : ¬ InContents d (tree t (tree t' nil)) root := by
  have wf := h.wellFormed
  have hmem : T ∈ ids (d.treeAt root) :=
    (wf.mem_descendants_iff.mp (wf.mem_descendants_iff_isBelow.mpr h.upright_taken.below)).1
  intro hin
  obtain ⟨u, hu, x, hx, hmem⟩ := ((h.detached_contents.closed wf).iff_of_mem_treeAt wf hmem).mp hin
  refine h.not_mem_treeAt ?_ hmem
  simp only [tree, toList, List.append_nil, List.mem_cons, List.not_mem_nil, or_false] at hu
  rcases hu with rfl | rfl
  · exact List.mem_append_left _ hx
  · exact List.mem_append_right _ hx

/-! ### When values have been filled in -/

section Filled

variable (hd : d.Retouches (¬ S ·) d')
include hd

/-- The children of the table without the rows. -/
theorem exists_children : ∃ u v, d'.children T = u ++ first :: v ∧ d'.rowsAmong u = prepared.rowsAmong l ∧
    d'.rowsAmong v = last :: prepared.rowsAmong r := by
  have hup := h.upright_taken
  have hnamed : ∀ n value, d.label? n = some ((Label.element ⟨Word.row, []⟩).setAttribute
      Word.insertionAttribute value) → d.isNamed n Word.row = true := fun n value hl => by
    rw [isNamed_eq_any, hl]
    rfl
  have hrows : d'.childrenNamed T Word.row = prepared.rowsAmong l ++ first :: last :: prepared.rowsAmong r := by
    rw [hd.childrenNamed_eq T (hup.mem_ids hup.start) (isNamed_eq_false_of_ne hup.table (by decide)) _ (by simp),
      childrenNamed, h.emptied.children_eq, List.filter_append, List.filter_cons_of_pos, List.filter_cons_of_pos,
      ← rowsAmong, ← rowsAmong, h.emptied.rowsAmong_eq fun n hn => by simp [h.children_eq, hn],
      h.emptied.rowsAmong_eq fun n hn => by simp [h.children_eq, hn]]
    · exact hnamed _ _ h.emptied.label?_last
    · exact hnamed _ _ h.emptied.label?_first
  exact exists_of_filter_eq hrows

/-- Of the children of the table only the bounds of the block have insertion points. -/
theorem eq_bound (hx : x ∈ d'.children T) (hmark : d'.attribute? x Word.insertionAttribute ≠ none) :
    x = first ∨ x = last := by
  rw [hd.attribute?_eq] at hmark
  have hmem : x ∈ d.ids := by
    by_contra hn
    exact hmark (h.wellFormed.attribute?_eq_none hn _)
  have hchild : x ∈ d.children T := by
    rw [← h.wellFormed.parent?_eq_some_iff]
    have hp := hd.grows.wellFormed.parent?_eq_some_iff.mpr hx
    rcases hd.parent?_eq x hmem with he | ⟨-, he⟩ <;> rw [he] at hp
    · exact hp
    · cases hp
  by_contra hnot
  rw [not_or] at hnot
  have hold : x ∈ prepared.children T := by
    rw [h.emptied.children_eq] at hchild
    simp only [List.mem_append, List.mem_cons, hnot, false_or] at hchild
    simp only [h.children_eq, List.mem_append]
    tauto
  rw [attribute?, h.emptied.label?_eq x hold] at hmark
  exact hmark (h.plain x)

theorem attribute?_first : d'.attribute? first Word.insertionAttribute ≠ none := by
  rw [hd.attribute?_eq]
  exact attribute?_ne_none h.emptied.label?_first rfl

theorem attribute?_last : d'.attribute? last Word.insertionAttribute ≠ none := by
  rw [hd.attribute?_eq]
  exact attribute?_ne_none h.emptied.label?_last rfl

theorem children_last : d'.children last = [] := by
  refine hd.children_eq_nil last (h.wellFormed.mem_ids_of_label? h.emptied.label?_last) ?_ h.emptied.children_last
  rw [isNamed_eq_any, h.emptied.label?_last]
  rfl

/-- The rows that were in the table have kept their shapes. -/
theorem rowShape_eq (hx : x ∈ prepared.childrenNamed T Word.row) : d'.rowShape x = prepared.rowShape x := by
  obtain ⟨hmem, hrow⟩ := mem_childrenNamed.mp hx
  rw [hd.rowShape_eq h.wellFormed ((h.emptied.isNamed_eq hmem _).trans hrow)]
  exact rowShape_congr (h.emptied.outline_eq hmem hrow)

theorem plainRows {ns : List NodeId} (hns : ∀ n ∈ ns, n ∈ prepared.children T) : PlainRows d' ns :=
  hd.plainRows h.wellFormed
    (fun n hn => h.emptied.grows.mem_ids n (h.upright.wellFormed.mem_ids_of_mem_children (hns n hn)))
    (h.emptied.plainRows h.plain hns)

theorem sectionShapes_eq :
    sectionShapes d' t' = (prepared.rowsAmong t'.content).map prepared.rowShape := by
  have hmem : ∀ n ∈ t'.content, n ∈ prepared.children T := fun n hn => by simp [h.children_eq, hn]
  rw [sectionShapes, hd.rowsAmong_eq fun n hn => h.emptied.grows.mem_ids n
    (h.upright.wellFormed.mem_ids_of_mem_children (hmem n hn)), h.emptied.rowsAmong_eq hmem]
  refine List.map_congr_left fun n hn => h.rowShape_eq hd ?_
  obtain ⟨hn, hrow⟩ := List.mem_filter.mp hn
  exact mem_childrenNamed.mpr ⟨hmem n hn, hrow⟩

variable (hl : d.Leaves d' (InContents d (tree t (tree t' nil))))
include hl

omit hd in
theorem treeAt_eq (hx : x ∈ t.content ++ t'.content) : d'.treeAt x = d.treeAt x := by
  obtain ⟨u, hu, hx⟩ : ∃ u ∈ (tree t (tree t' nil)).toList, x ∈ u.content := by
    rcases List.mem_append.mp hx with hx | hx
    · exact ⟨t, by simp [tree, toList], hx⟩
    · exact ⟨t', by simp [tree, toList], hx⟩
  refine h.wellFormed.treeAt_congr hl.grows.wellFormed (h.detached_contents u hu x hx).1 fun m hm => ?_
  have hsame := hl.unchanged m (.of_mem hu hx hm)
  exact ⟨hsame.label?_eq, hsame.children_eq⟩

/-- If the contents are as they were, the block is one around rows. -/
theorem rowBlock : RowBlock d' T t t' I := by
  obtain ⟨a, e, hb⟩ := h.bounds
  refine ⟨hd.grows.wellFormed, fun u hu x hx => ?_,
    ⟨a, e, hb.congr fun x hx => h.treeAt_eq hl (List.mem_append_left _ hx)⟩, ?_,
    h.plainRows hd fun n hn => by simp [h.children_eq, hn], fun x hx => ?_⟩
  · obtain ⟨hmem, hnone⟩ := h.detached u hu x hx
    exact ⟨hd.grows.mem_ids x hmem, (hd.parent?_eq x hmem).elim (·.trans hnone) (·.2)⟩
  · rw [Block.Template.kind, h.section_eq]
  · rw [h.treeAt_eq hl hx]
    exact h.not_mem_treeAt hx

end Filled

end RowsTaken

namespace AroundRows

variable (h : AroundRows settings root d T i j o c inner)
  (hinner : InParagraphs ((prepare settings root d).2.IsBelow · T) (prepare settings root d).2 inner)
include h hinner

/-- The contents of the blocks are taken out. -/
theorem exists_taken {B : Forest Block} {B' : Forest Block.Placed} {d₂ d₃ : Document} {Ts : Forest Block.Template}
    (hstages : Stages settings root d B B' d₂ Ts d₃) :
    ∃ t t' I l r first last, Ts = tree t (tree t' I) ∧
      RowsOut T (prepare settings root d).2 d₃ o c t t' I l r first last ∧
      (prepare settings root d).2.rowsAmong l = (d.childrenNamed T Word.row).take i ∧
      (prepare settings root d).2.rowsAmong t'.content = ((d.childrenNamed T Word.row).take (j + 1)).drop i ∧
      (prepare settings root d).2.rowsAmong r = (d.childrenNamed T Word.row).drop (j + 1) := by
  have wf := h.wellFormed_prepare
  obtain ⟨a, b, ha, hb, hspans⟩ := h.spans
  have hrows := h.childrenNamed_eq
  have hrow : ∀ {k n}, (d.childrenNamed T Word.row)[k]? = some n →
      (prepare settings root d).2.isNamed n Word.row = true := fun hn => by
    rw [← hrows] at hn
    exact (mem_childrenNamed.mp (List.mem_of_getElem? hn)).2
  have hrowA := hrow ha
  have hrowB := hrow hb
  rw [← hrows, childrenNamed] at ha hb
  obtain ⟨l, mid, r, hchildren, hhead, hlast, hl, hmid, hr⟩ := exists_between ha hb h.le
  rw [← childrenNamed, hrows] at hl hmid hr
  have hB : B = tree ⟨.collectionStart, o, c⟩ (tree ⟨.content, o, c⟩ inner) :=
    Except.ok.inj (hstages.nest_eq.symm.trans h.nest_eq)
  have hplace := hstages.placeAll_eq
  rw [hB] at hplace
  obtain ⟨hdetached, first, last, first', last', I, htemplates, hemptied, hlabel, hlabel', hnil, hnil'⟩ :=
    Block.exists_emptied wf h.isNamed_prepare hchildren hhead hlast hrowA hrowB hspans h.attribute?_prepare
      hinner hplace
  rw [hstages.extractAll_eq] at hdetached htemplates hemptied hlabel hlabel' hnil hnil'
  rw [htemplates] at hdetached
  exact ⟨_, _, I, l, r, first, last, htemplates, ⟨h.attribute?_prepare, hemptied, hchildren, hdetached,
    ⟨first', last', rfl, hlabel, hlabel', hnil, hnil'⟩, rfl, rfl, rfl⟩, hl, hmid, hr⟩

/-- The directive at the start of the block begins a collection. -/
theorem kind_eq {B : Forest Block} {B' : Forest Block.Placed} {d₂ d₃ : Document} {Ts : Forest Block.Template}
    (hstages : Stages settings root d B B' d₂ Ts d₃) : o.directive.kind = .collectionStart := by
  obtain ⟨t, t', I, l, r, first, last, rfl, htaken, -⟩ := h.exists_taken hinner hstages
  have hkind : t.block.kind = .content ∨ t.block.kind = t.block.start.directive.kind := hstages.conforms.1
  rw [htaken.block_eq] at hkind
  exact (hkind.resolve_left nofun).symm

end AroundRows

end WordTemplate
