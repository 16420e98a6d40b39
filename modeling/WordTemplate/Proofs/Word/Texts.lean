import Mathlib.Data.List.Nodup
import WordTemplate.Proofs.Preparation
import WordTemplate.Proofs.Word.Trace
import WordTemplate.Proofs.Xml.Family

/-!
# Texts apart from each other

If no text is in another one, writing one of them leaves the others as they are.

* `Separate`: texts none of which is in the tree at another one.
* `isolateEdits_tracks`: what isolating a directive does to them.
* `Legible`: the characters that are still to be read are in the texts where they say.
-/

namespace WordTemplate

open Xml Forest FlatText

/-! ## Texts apart from each other -/

namespace Xml.Document

variable {d d' : Document} {n m t : NodeId} {ns : List NodeId}

theorem Apart.symm (h : d.Apart n m) (hn : n ∈ d.ids) : d.Apart m n :=
  ⟨hn, fun i hi hm => h.disjoint i hm hi⟩

/-- The texts at and below a node. -/
theorem WellFormed.mem_textElements_iff (wf : d.WellFormed) {root : NodeId} :
    n ∈ d.textElements root ↔ n ∈ Xml.ids (d.treeAt root) ∧ d.isNamed n Word.text = true := by
  have hlabel := fun (node : Node) (h : node ∈ (d.treeAt root).toList) => wf.label?_of_mem_treeAt h
  rw [textElements, List.mem_map]
  constructor
  · rintro ⟨node, hmem, rfl⟩
    obtain ⟨hmem, htext⟩ := List.mem_filter.mp hmem
    exact ⟨List.mem_map_of_mem hmem, isNamed_iff.mpr ⟨_, hlabel node hmem, htext⟩⟩
  · rintro ⟨hmem, hname⟩
    obtain ⟨node, hnode, rfl⟩ := List.mem_map.mp hmem
    obtain ⟨l, hl, htext⟩ := isNamed_iff.mp hname
    obtain rfl := Option.some.inj (hl.symm.trans (hlabel node hnode))
    exact ⟨node, List.mem_filter.mpr ⟨hnode, htext⟩, rfl⟩

/-- Whether the nodes are texts and none of them is in the tree at another one. -/
structure Separate (d : Document) (ns : List NodeId) : Prop where
  named : ∀ n ∈ ns, d.isNamed n Word.text = true
  apart : ∀ n ∈ ns, ∀ m ∈ ns, n ≠ m → d.Apart n m

theorem Separate.mem_ids (h : d.Separate ns) (wf : d.WellFormed) (hn : n ∈ ns) : n ∈ d.ids :=
  wf.mem_ids_of_isNamed (h.named n hn)

theorem Separate.not_mem (h : d.Separate ns) (wf : d.WellFormed) (ht : t ∈ ns) (hn : n ∈ ns)
    (hne : n ≠ t) : t ∉ Xml.ids (d.treeAt n) :=
  (h.apart t ht n hn (Ne.symm hne)).not_mem (wf.mem_treeAt_self (h.mem_ids wf ht))

/-- Whether a step from `d` to `d'` changes no text but `t`. -/
structure Spares (d d' : Document) (ns : List NodeId) (t : NodeId) : Prop where
  gains : d.Gains d'
  treeAt_eq : ∀ n ∈ ns, n ≠ t → d'.treeAt n = d.treeAt n

theorem Spares.trans {d'' : Document} (h : d.Spares d' ns t) (h' : d'.Spares d'' ns t) :
    d.Spares d'' ns t where
  gains := h.gains.trans h'.gains
  treeAt_eq n hn hne := (h'.treeAt_eq n hn hne).trans (h.treeAt_eq n hn hne)

theorem innerText_congr (h : d'.treeAt n = d.treeAt n) : d'.innerText n = d.innerText n := by
  rw [innerText, labelsAt, h, innerText, labelsAt]

theorem Spares.innerText_eq (h : d.Spares d' ns t) (hn : n ∈ ns) (hne : n ≠ t) :
    d'.innerText n = d.innerText n :=
  innerText_congr (h.treeAt_eq n hn hne)

theorem Separate.spares (h : d.Separate ns) (wf : d.WellFormed) (hs : d.Spares d' ns t) :
    d'.Separate ns where
  named n hn := by
    rw [hs.gains.isNamed_eq (h.mem_ids wf hn)]
    exact h.named n hn
  apart n hn m hm hne := by
    refine ⟨hs.gains.grows.mem_ids m (h.mem_ids wf hm), fun i him hin => ?_⟩
    have hdisjoint := (h.apart n hn m hm hne).disjoint i
    have hm' := hs.gains.mem_or_fresh m (h.mem_ids wf hm) i him
    have hn' := hs.gains.mem_or_fresh n (h.mem_ids wf hn) i hin
    -- A node that is in both trees is new, but one of the trees is as before.
    have hold : ∀ {k}, i ∈ Xml.ids (d.treeAt k) → ¬ d.fresh ≤ i.number := fun hk hle => by
      have := wf.lt_fresh_of_treeAt hk
      omega
    have hfresh : d.fresh ≤ i.number := by
      rcases hm' with hm' | hm'
      · rcases hn' with hn' | hn'
        · exact absurd hn' (hdisjoint hm')
        · exact absurd hn' (hold hm')
      · exact hm'
    by_cases ht : m = t
    · rw [hs.treeAt_eq n hn (ht ▸ hne)] at hin
      exact hold hin hfresh
    · rw [hs.treeAt_eq m hm ht] at him
      exact hold him hfresh

/-! ## Writing one of the texts -/

theorem innerText_of_treeAt {node : Node} {cs : Forest Node} (ht : d.treeAt n = tree node cs)
    (hl : node.label.isElement = true) : d.innerText n = Xml.innerText (labels cs) := by
  rw [innerText, labelsAt, ht, labels_tree, tree]
  cases hn : node.label with
  | text content => simp [hn, Label.isElement] at hl
  | element tag => simp [Xml.innerText]

theorem Separate.exists_treeAt (h : d.Separate ns) (wf : d.WellFormed) (ht : t ∈ ns) :
    ∃ node cs, node.id = t ∧ d.treeAt t = tree node cs ∧ node.label.isNamed Word.text = true := by
  obtain ⟨node, cs, hid, htree⟩ := wf.exists_treeAt (h.mem_ids wf ht)
  obtain ⟨l, hl, htext⟩ := isNamed_iff.mp (h.named t ht)
  rw [label?, htree] at hl
  obtain rfl : node.label = l := Option.some.inj hl
  exact ⟨node, cs, hid, htree, htext⟩

theorem spares_of_within (hsep : d.Separate ns) (ht : t ∈ ns) (hg : d.Gains d') (hw : d.Within d' t) :
    d.Spares d' ns t :=
  ⟨hg, fun n hn hne => hw.treeAt_eq n (hsep.apart t ht n hn (Ne.symm hne))⟩

/-- Changing what a text says. -/
theorem Separate.setText (h : d.Separate ns) (wf : d.WellFormed) (ht : t ∈ ns)
    (hg : d.Gains (d.setText t content)) :
    d.Spares (d.setText t content) ns t ∧ (d.setText t content).innerText t = content := by
  obtain ⟨node, cs, rfl, htree, htext⟩ := h.exists_treeAt wf ht
  have hl := Label.WellMarked.isElement_of_isNamed htext
  obtain ⟨cs', hcs', hw, htree', -⟩ := setText_spec (l := nil) (r := nil) (.refl wf) wf
    (h.mem_ids wf ht) (eq_wrap_nil htree) hl content
  refine ⟨spares_of_within h ht hg hw, ?_⟩
  rw [innerText_of_treeAt htree' hl, hcs', innerText_textChildren]

/-- Setting an attribute of a text. -/
theorem Separate.setAttribute (h : d.Separate ns) (wf : d.WellFormed) (ht : t ∈ ns)
    (key value : String) :
    d.Spares (d.setAttribute t key value) ns t ∧
      (d.setAttribute t key value).innerText t = d.innerText t := by
  obtain ⟨node, cs, rfl, htree, htext⟩ := h.exists_treeAt wf ht
  have hl := Label.WellMarked.isElement_of_isNamed htext
  have hmem : node.id ∈ Xml.ids (d.treeAt node.id) := wf.mem_treeAt_self (h.mem_ids wf ht)
  refine ⟨spares_of_within h ht ((Gains.refl wf).setAttribute _ _ _)
    ((Within.refl wf).relabel wf hmem _), ?_⟩
  have htree' := treeAt_relabel_spot (l := nil) (r := nil) wf (eq_wrap_nil htree)
    (Label.setAttribute key value)
  rw [innerText_of_treeAt htree hl]
  exact innerText_of_treeAt htree' (by rwa [Label.isElement_setAttribute])

/-! ## New texts and texts that are taken out -/

/-- Putting a new text beside one of the texts. -/
theorem Separate.insertNew {d₁ : Document} {f : Forest Node} {content : String}
    (h : d.Separate ns) (wf : d.WellFormed) (hm : d.Makes d₁ m f) (hf : labels f = textElement content)
    (ht : t ∈ ns) {put : Forest Node → Forest Node → Forest Node}
    (hput : ∀ f g, put f g = f ++ g ∨ put f g = g ++ f) (hg : d.Gains (d₁.insertBeside put t m)) :
    (∀ n ∈ ns, (d₁.insertBeside put t m).treeAt n = d.treeAt n) ∧
      (d₁.insertBeside put t m).Separate (m :: ns) ∧
      (d₁.insertBeside put t m).innerText m = content ∧ d.fresh ≤ m.number := by
  have wf₁ := hm.extends_eq.grows.wellFormed
  have hmem := fun n (hn : n ∈ ns) => h.mem_ids wf hn
  have hr := hm.receives wf (hmem t ht)
  have hsame : ∀ n, n ∈ m :: ns → (d₁.insertBeside put t m).treeAt n = d₁.treeAt n := by
    intro n hn
    cases hp : d₁.parent? t with
    | none => rw [insertBeside, hp]
    | some parent =>
      rw [wf₁.treeAt_insertBeside hr (by rw [hp]; rfl) hput]
      rw [ite_eq_left_iff, not_or]
      rintro ⟨hnm, hnt⟩
      rcases List.mem_cons.mp hn with rfl | hn
      · exact absurd (wf₁.mem_treeAt_self hm.mem_ids) hnm
      · refine replace_eq_self_of_not_mem ?_
        rw [hm.extends_eq.treeAt_eq n (hmem n hn)]
        exact h.not_mem wf ht hn hnt
  have hold : ∀ n ∈ ns, (d₁.insertBeside put t m).treeAt n = d.treeAt n := fun n hn =>
    (hsame n (List.mem_cons_of_mem _ hn)).trans (hm.extends_eq.treeAt_eq n (hmem n hn))
  have hnew : (d₁.insertBeside put t m).treeAt m = f :=
    (hsame m (List.mem_cons_self ..)).trans hm.treeAt_eq
  have hsep : (d₁.insertBeside put t m).Separate ns :=
    h.spares (t := t) wf ⟨hg, fun n hn _ => hold n hn⟩
  obtain ⟨node, cs, hid, htree⟩ := wf₁.exists_treeAt hm.mem_ids
  rw [hm.treeAt_eq] at htree
  have hle : d.fresh ≤ m.number := hm.fresh_le m (by rw [htree]; simp [hid])
  have hapart : ∀ n ∈ ns, (d₁.insertBeside put t m).Apart m n := by
    intro n hn
    refine ⟨hg.grows.mem_ids n (hmem n hn), fun i hi him => ?_⟩
    rw [hold n hn] at hi
    rw [hnew] at him
    have := wf.lt_fresh_of_treeAt hi
    have := hm.fresh_le i him
    omega
  have hmid : m ∈ (d₁.insertBeside put t m).ids := (wf₁.grows_beside hr hput).mem_ids m hm.mem_ids
  have htext := roots_textElement hf node (by rw [htree]; simp)
  refine ⟨hold, ⟨fun n hn => ?_, fun a ha b hb hne => ?_⟩, ?_, hle⟩
  · rcases List.mem_cons.mp hn with rfl | hn
    · refine isNamed_iff.mpr ⟨node.label, ?_, htext⟩
      rw [label?, hnew, htree]
      rfl
    · exact hsep.named n hn
  · rcases List.mem_cons.mp ha with rfl | ha'
    · exact hapart b ((List.mem_cons.mp hb).resolve_left (Ne.symm hne))
    · rcases List.mem_cons.mp hb with rfl | hb'
      · exact (hapart a ha').symm hmid
      · exact hsep.apart a ha' b hb' hne
  · rw [innerText_of_treeAt (hnew.trans htree) (Label.WellMarked.isElement_of_isNamed htext)]
    rw [htree, textElement, labels_tree] at hf
    rw [(Forest.cons.inj hf).2.1, innerText_textChildren]

/-- Taking out one of the texts, with its run if nothing else is in it. -/
theorem Separate.detachFromRun (h : d.Separate ns) (wf : d.WellFormed) (ht : t ∈ ns) :
    d.Gains (d.detachFromRun t) ∧ ∀ n ∈ ns, (d.detachFromRun t).treeAt n = d.treeAt n := by
  have hdetach : ∀ n ∈ ns, (d.detach t).treeAt n = d.treeAt n := by
    intro n hn
    rw [wf.treeAt_detach]
    split
    · next he => rw [he]
    · next hne => exact prune_eq_self_of_not_mem (h.not_mem wf ht hn hne)
  have hg := (Gains.refl wf).detach t
  rcases detachFromRun_cases d t with he | ⟨run, hrun, he⟩ <;> rw [he]
  · exact ⟨hg, hdetach⟩
  · refine ⟨hg.detach run, fun n hn => ?_⟩
    rw [treeAt_detach_of_not_mem hg.grows.wellFormed, hdetach n hn]
    rw [hdetach n hn]
    intro hmem
    by_cases hne : n = t
    · exact wf.parent?_not_mem hrun (hne ▸ hmem)
    · exact h.not_mem wf ht hn hne (wf.mem_of_parent?_mem hrun hmem)

end Xml.Document

/-! ## Parts of an isolation -/

section Isolation

variable {W : Watch} {d d' : Document} {t : NodeId} {ns : List NodeId}

end Isolation

/-! ## Characters that can still be read -/

/-- Whether characters are in the texts `ns` where they say, in ascending order in each of them. -/
structure Legible (d : Document) (ns : List NodeId) (es : List Entry) : Prop where
  node_mem : ∀ e ∈ es, e.node ∈ ns
  offset_lt : ∀ e ∈ es, e.offset < (d.innerText e.node).toList.length
  ascending : es.Pairwise fun e e' => e.node = e'.node → e.offset < e'.offset

section Legible

variable {d d' : Document} {ns ns' : List NodeId} {es es' covered rest : List Entry} {t : NodeId}

theorem Legible.sublist (h : Legible d ns es) (hes : es'.Sublist es) : Legible d ns es' :=
  ⟨fun e he => h.node_mem e (hes.mem he), fun e he => h.offset_lt e (hes.mem he),
    h.ascending.sublist hes⟩

/-- As many characters as there are in front of a character in its text. -/
theorem countP_le_offset {e : Entry} {n : NodeId}
    (h : (covered ++ [e]).Pairwise fun e e' => e.node = e'.node → e.offset < e'.offset)
    (hn : e.node = n) : covered.countP (·.node == n) ≤ e.offset := by
  -- Going on from the front, each character of the text is at least one place further.
  suffices key : ∀ (l : List Entry) (k : Nat), (l ++ [e]).Pairwise (fun e e' => e.node = e'.node →
      e.offset < e'.offset) → (∀ c ∈ l, c.node = n → k ≤ c.offset) → k ≤ e.offset →
        k + l.countP (·.node == n) ≤ e.offset by
    have := key covered 0 h (fun _ _ _ => Nat.zero_le _) (Nat.zero_le _)
    omega
  intro l
  induction l with
  | nil =>
    intro k _ _ hk
    simpa using hk
  | cons c l ih =>
    intro k hl hmin hk
    rw [List.cons_append, List.pairwise_cons] at hl
    by_cases hc : c.node = n
    · have hce := hl.1 e (by simp) (hc.trans hn.symm)
      have hkc := hmin c (List.mem_cons_self ..) hc
      have := ih (c.offset + 1) hl.2 (fun x hx hxn => hl.1 x (by simp [hx]) (hc.trans hxn.symm)) hce
      rw [List.countP_cons_of_pos (by simpa using hc)]
      omega
    · rw [List.countP_cons_of_neg (by simpa using hc)]
      exact ih k hl.2 (fun x hx => hmin x (List.mem_cons_of_mem _ hx)) hk

/-- The end of the covered part of a text is not behind the characters that follow. -/
theorem cut_le_offset {e : Entry} {n : NodeId}
    (h : (covered ++ [e]).Pairwise fun e e' => e.node = e'.node → e.offset < e'.offset)
    (hn : e.node = n) :
    ((covered.filter (·.node == n)).map (·.offset + 1)).getLastD 0 ≤ e.offset := by
  rw [List.getLastD_eq_getLast?, List.getLast?_map]
  cases hlast : (covered.filter (·.node == n)).getLast? with
  | none => simp
  | some c =>
    have hc := List.mem_filter.mp (List.mem_of_getLast? hlast)
    simp only [beq_iff_eq] at hc
    have := (List.pairwise_append.mp h).2.2 c hc.1 e (by simp) (hc.2.trans hn.symm)
    simp only [Option.map_some, Option.getD_some]
    omega

/-- The characters behind an isolated stretch can still be read, in their new places. -/
theorem Legible.moved {cut : Nat} {taken : NodeId → Nat} (h : Legible d ns (covered ++ rest))
    (back : NodeId)
    (hcut : cut = ((covered.filter (·.node == t)).map (·.offset + 1)).getLastD 0)
    (htaken : ∀ n, n ≠ t → taken n = covered.countP (·.node == n)) (hns : ∀ n ∈ ns, n ∈ ns')
    (hback : cut < (d.innerText t).toList.length → back ∈ ns' ∧ back ∉ ns ∧
      (d'.innerText back).toList = (d.innerText t).toList.drop cut)
    (hother : ∀ n ∈ ns, n ≠ t → d'.innerText n = d.innerText n ∨
      (d'.innerText n).toList = (d.innerText n).toList.drop (taken n) ∧
        taken n < (d.innerText n).toList.length) :
    let move := fun e : Entry => if e.node = t then { e with node := back, offset := e.offset - cut }
      else { e with offset := e.offset - taken e.node }
    Legible d' ns' (rest.map move) ∧
      ∀ e ∈ rest.map move, e.node ≠ t ∧ ((∃ e₀ ∈ rest, e₀.node = e.node) ∨
        cut < (d.innerText t).toList.length ∧ e.node = back) := by
  intro move
  have hasc := h.ascending
  have hsub : ∀ e ∈ rest, (covered ++ [e]).Sublist (covered ++ rest) := fun e he =>
    (List.Sublist.refl _).append (List.singleton_sublist.mpr he)
  have hcut_le : ∀ e ∈ rest, e.node = t → cut ≤ e.offset := fun e he hn => by
    rw [hcut]
    exact cut_le_offset (hasc.sublist (hsub e he)) hn
  have htaken_le : ∀ e ∈ rest, e.node ≠ t → taken e.node ≤ e.offset := fun e he hn => by
    rw [htaken _ hn]
    exact countP_le_offset (hasc.sublist (hsub e he)) rfl
  have hlt := fun e (he : e ∈ rest) => h.offset_lt e (List.mem_append_right _ he)
  have hmem := fun e (he : e ∈ rest) => h.node_mem e (List.mem_append_right _ he)
  have hcut_lt : ∀ e ∈ rest, e.node = t → cut < (d.innerText t).toList.length := fun e he hn =>
    Nat.lt_of_le_of_lt (hcut_le e he hn) (hn ▸ hlt e he)
  have hb := fun e he hn => hback (hcut_lt e he hn)
  have hmove_t : ∀ e, e.node = t → move e = { e with node := back, offset := e.offset - cut } :=
    fun e hn => if_pos hn
  have hmove_ne : ∀ e, e.node ≠ t → move e = { e with offset := e.offset - taken e.node } :=
    fun e hn => if_neg hn
  refine ⟨⟨fun e' he' => ?_, fun e' he' => ?_, ?_⟩, fun e' he' => ?_⟩
  · obtain ⟨e, he, rfl⟩ := List.mem_map.mp he'
    by_cases hn : e.node = t
    · rw [hmove_t e hn]
      exact (hb e he hn).1
    · rw [hmove_ne e hn]
      exact hns _ (hmem e he)
  · obtain ⟨e, he, rfl⟩ := List.mem_map.mp he'
    have hlt := hlt e he
    by_cases hn : e.node = t
    · rw [hmove_t e hn]
      have := hcut_le e he hn
      rw [hn] at hlt
      simp only [(hb e he hn).2.2, List.length_drop]
      omega
    · rw [hmove_ne e hn]
      have hle := htaken_le e he hn
      rcases hother _ (hmem e he) hn with ho | ⟨ho, -⟩
      · simp only [ho]
        omega
      · simp only [ho, List.length_drop]
        omega
  · rw [List.pairwise_map]
    refine (hasc.sublist (List.sublist_append_right covered rest)).imp_of_mem fun {e e'} he he' hlt' => ?_
    by_cases hn : e.node = t <;> by_cases hn' : e'.node = t
    · rw [hmove_t e hn, hmove_t e' hn']
      intro _
      have := hlt' (hn.trans hn'.symm)
      have := hcut_le e he hn
      simp only
      omega
    · rw [hmove_t e hn, hmove_ne e' hn']
      exact fun hbn => absurd (hmem e' he') (hbn ▸ (hb e he hn).2.1)
    · rw [hmove_ne e hn, hmove_t e' hn']
      exact fun hbn => absurd (hmem e he) (hbn ▸ (hb e' he' hn').2.1)
    · rw [hmove_ne e hn, hmove_ne e' hn']
      intro hnn
      have := hlt' hnn
      have := htaken_le e he hn
      simp only at hnn ⊢
      rw [hnn] at this ⊢
      omega
  · obtain ⟨e, he, rfl⟩ := List.mem_map.mp he'
    by_cases hn : e.node = t
    · rw [hmove_t e hn]
      have htns : t ∈ ns := hn ▸ hmem e he
      have hout := (hb e he hn).2.1
      exact ⟨fun hbt : back = t => hout (hbt ▸ htns), .inr ⟨hcut_lt e he hn, rfl⟩⟩
    · rw [hmove_ne e hn]
      exact ⟨hn, .inl ⟨e, he, rfl⟩⟩

end Legible

end WordTemplate
