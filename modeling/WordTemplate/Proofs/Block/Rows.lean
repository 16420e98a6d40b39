import WordTemplate.Proofs.Block.Nesting
import WordTemplate.Proofs.Block.Placement
import WordTemplate.Proofs.Word.Retouching
import WordTemplate.Proofs.Xml.Moves
import WordTemplate.Proofs.Xml.Navigation

/-!
# Blocks around rows

A block that starts in one row of a table and stops in another one, or in another cell of that row, is placed
around these rows: there is an empty row in front of them and one behind them, which bear its insertion
points. Nothing else changes.

* `place?_rows`: where such a block is placed.
* `placeOne_rows`: what that does to the document.
-/

namespace WordTemplate

open Xml Forest Xml.Document

variable {d d' : Document} {n m p t a b x y start stop T : NodeId} {l l' r r' : List NodeId}

/-! ## New children -/

namespace Xml.Document

/-- Whether a new node `m` without children has come between the children `l` and `r` of `p`. -/
structure PutsIn (d d' : Document) (p m : NodeId) (l r : List NodeId) (label : Label) : Prop where
  grows : d.Grows d'
  not_mem : m ∉ d.ids
  mem_or_eq : ∀ n ∈ d'.ids, n ∈ d.ids ∨ n = m
  children_eq : d'.children p = l ++ m :: r
  label?_eq : d'.label? m = some label
  children_new : d'.children m = []
  unchanged : ∀ n ∈ d.ids, n ≠ p → d.Unchanged d' n
  label?_parent : d'.label? p = d.label? p
  parent?_parent : d'.parent? p = d.parent? p

theorem WellFormed.putsIn (wf : d.WellFormed) (ht : d.children p = l ++ t :: r) (label : Label)
    (l' r' : List NodeId) {j : Forest Node → Forest Node → Forest Node} (hput : ∀ f g, j f g = f ++ g ∨ j f g = g ++ f)
    (hu : (j (tree ⟨d.freshId, label⟩ nil) (d.treeAt t)).roots.map Node.id = l' ++ d.freshId :: r') :
    d.PutsIn ((d.create label).2.insertBeside j t d.freshId) p d.freshId (l ++ l') (r' ++ r) label := by
  have hmem : t ∈ d.children p := by simp [ht]
  have htids := wf.mem_ids_of_mem_children hmem
  have hpids := wf.mem_ids_of_children hmem
  have hmakes := makes_addCopies wf label .nil
  have hr := hmakes.receives wf htids
  have wf₁ := hmakes.extends_eq.grows.wellFormed
  have hold := fun n (hn : n ∈ d.ids) => wf.unchanged_addCopies (tree label nil) hn
  have hsome : ((d.addCopies (tree label nil)).parent? t).isSome := by
    rw [(hold t htids).parent?_eq, wf.parent?_eq_some_iff.mpr hmem]
    rfl
  have hnew : d.freshId ∉ d.ids := fun h => hmakes.not_mem wf h (by simp [Forest.tree])
  have hnd := wf.nodup_children p
  rw [ht] at hnd
  have hmoves := wf₁.moves_insertBeside hr hsome hput
  change PutsIn d ((d.addCopies (tree label nil)).insertBeside j t d.freshId) ..
  have hchildren := wf₁.children_insertBeside hr hsome hput
  have htree : (d.addCopies (tree label nil)).treeAt d.freshId = tree ⟨d.freshId, label⟩ nil :=
    hmakes.treeAt_eq
  refine ⟨hmakes.extends_eq.grows.trans hmoves.grows, hnew, fun n hn => ?_, ?_, ?_, ?_, fun n hn hne => ?_, ?_, ?_⟩
  · obtain ⟨node, hnode, rfl⟩ := List.mem_map.mp hn
    have hl := (hmoves.label?_eq node.id).symm.trans (hmoves.grows.wellFormed.label?_of_mem hnode)
    have hn₁ := wf₁.mem_ids_of_label? hl
    refine (hmakes.extends_eq.grows.mem_or_fresh _ hn₁).imp id fun hle => ?_
    have hlt := wf₁.lt_fresh _ hn₁
    rw [fresh_addCopies] at hlt
    have : (tree label nil : Forest Label).size = 1 := rfl
    have heq : node.id.number = d.fresh := by omega
    show node.id = ⟨d.fresh⟩
    rw [← heq]
  · rw [hchildren, (hold p hpids).children_eq, ht, htree,
      wf.treeAt_addCopies_of_mem _ htids, List.flatMap_append, List.flatMap_cons, if_pos rfl, hu,
      flatMap_eq_self, flatMap_eq_self]
    · simp
    · exact (List.nodup_cons.mp (List.nodup_append.mp hnd).2.1).1
    · exact fun h => (List.nodup_append.mp hnd).2.2 t h t (List.mem_cons_self ..) rfl
  · rw [hmoves.label?_eq, Document.label?, htree]
    rfl
  · rw [hchildren, Document.children, htree]
    rfl
  · refine (hold n hn).trans (wf₁.unchanged_insertBeside hr hput (hmakes.extends_eq.grows.mem_ids n hn)
      (fun he => hnew (he ▸ hn)) ?_)
    rw [(hold n hn).children_eq, ← wf.parent?_eq_some_iff, wf.parent?_eq_some_iff.mpr hmem]
    exact fun he => hne (Option.some.inj he).symm
  · rw [hmoves.label?_eq, (hold p hpids).label?_eq]
  · rw [wf₁.parent?_insertBeside_of_ne hr hsome hput fun he => hnew (he ▸ hpids), (hold p hpids).parent?_eq]

theorem WellFormed.putsIn_before (wf : d.WellFormed) (ht : d.children p = l ++ t :: r) (name : String) :
    d.PutsIn ((d.createElement name).2.insertBefore t d.freshId) p d.freshId l (t :: r) (.element ⟨name, []⟩) := by
  have hmem : t ∈ d.children p := by simp [ht]
  obtain ⟨node, cs, rfl, htree⟩ := wf.exists_treeAt (wf.mem_ids_of_mem_children hmem)
  have h := wf.putsIn ht (.element ⟨name, []⟩) [] [node.id]
    (j := fun moved sibling => moved ++ sibling) (fun _ _ => .inl rfl) (by rw [htree]; rfl)
  rw [List.append_nil] at h
  exact h

theorem WellFormed.putsIn_after (wf : d.WellFormed) (ht : d.children p = l ++ t :: r) (name : String) :
    d.PutsIn ((d.createElement name).2.insertAfter t d.freshId) p d.freshId (l ++ [t]) r (.element ⟨name, []⟩) := by
  have hmem : t ∈ d.children p := by simp [ht]
  obtain ⟨node, cs, rfl, htree⟩ := wf.exists_treeAt (wf.mem_ids_of_mem_children hmem)
  exact wf.putsIn ht (.element ⟨name, []⟩) [node.id] []
    (j := fun moved sibling => sibling ++ moved) (fun _ _ => .inr rfl) (by rw [htree]; rfl)

theorem WellFormed.mem_ids_relabel (wf : d.WellFormed) {change : Label → Label}
    (h : n ∈ (d.relabel m change).ids) : n ∈ d.ids := by
  have hgrows := wf.grows_relabel m change
  refine (hgrows.mem_or_fresh n h).resolve_right fun hle => ?_
  have hlt := hgrows.wellFormed.lt_fresh n h
  rw [wf.fresh_relabel] at hlt
  exact Nat.not_lt.mpr hle hlt

end Xml.Document

/-! ## Ends in rows -/

namespace Block

/-- Whether a block that starts at `start` and stops at `stop` goes from the row `a` to the row `b`: the ends
are in these rows or, if it is one row, in two cells of it. -/
inductive Spans (d : Document) (start stop a b : NodeId) : Prop where
  | rows : a ≠ b → d.IsBelow start a → d.IsBelow stop b → Spans d start stop a b
  | cells {x y : NodeId} : a = b → x ∈ d.childrenNamed a Word.cell → y ∈ d.childrenNamed a Word.cell → x ≠ y →
      d.IsBelow start x → d.IsBelow stop y → Spans d start stop a b

end Block

/-- The lowest node above nodes that are below two of its children. -/
theorem Xml.Document.WellFormed.commonAncestor?_of_children (wf : d.WellFormed) (ha : a ∈ d.children p)
    (hb : b ∈ d.children p) (hne : a ≠ b) (hstart : d.IsBelow start a) (hstop : d.IsBelow stop b) :
    d.commonAncestor? start stop = some p ∧ d.childToward? p start = some a ∧ d.childToward? p stop = some b := by
  have hpa := wf.parent?_eq_some_iff.mpr ha
  have hpb := wf.parent?_eq_some_iff.mpr hb
  have hup := hstart.tail hpa
  have hup' := hstop.tail hpb
  refine ⟨?_, wf.childToward?_eq_some_iff.mpr ⟨hpa, .inr hstart⟩, wf.childToward?_eq_some_iff.mpr ⟨hpb, .inr hstop⟩⟩
  obtain ⟨q, hq⟩ := Option.isSome_iff_exists.mp (wf.isSome_commonAncestor?_iff.mpr ⟨p, hup, hup'⟩)
  obtain ⟨hqs, hqe, hlowest⟩ := wf.commonAncestor?_eq_some hq
  rcases hlowest p hup hup' with rfl | hqp
  · exact hq
  · -- A lower node would be below one child, which is both of them.
    obtain ⟨x, hx⟩ := wf.exists_childToward? hqp
    obtain ⟨hpx, hxq⟩ := wf.childToward?_eq_some_iff.mp hx
    have hbelow : ∀ {z}, d.IsBelow z q → d.IsBelow z x := fun hz =>
      hxq.elim (fun he => he ▸ hz) fun h => hz.trans h
    have hxa := wf.eq_of_parent? hpx hpa (.inr (hbelow hqs)) (.inr hstart)
    have hxb := wf.eq_of_parent? hpx hpb (.inr (hbelow hqe)) (.inr hstop)
    exact absurd (hxa.symm.trans hxb) hne

namespace Block

/-- A block from row to row is placed around these rows. -/
theorem place?_rows (wf : d.WellFormed) (hT : d.isNamed T Word.table = true)
    (ha : a ∈ d.childrenNamed T Word.row) (hb : b ∈ d.childrenNamed T Word.row) (h : Spans d start stop a b) :
    place? d start stop = some (surroundRows d a b) := by
  obtain ⟨ha, hrow⟩ := mem_childrenNamed.mp ha
  obtain ⟨hb, -⟩ := mem_childrenNamed.mp hb
  cases h with
  | rows hne hstart hstop =>
    obtain ⟨hcommon, hcs, hce⟩ := wf.commonAncestor?_of_children ha hb hne hstart hstop
    have hnot : d.isNamed T Word.row = false := isNamed_eq_false_of_ne hT (by decide)
    simp [place?, hcommon, hcs, hce, hT, hnot]
  | cells he hx hy hne hstart hstop =>
    subst he
    obtain ⟨hcommon, -, -⟩ := wf.commonAncestor?_of_children (mem_childrenNamed.mp hx).1
      (mem_childrenNamed.mp hy).1 hne hstart hstop
    simp [place?, hcommon, hrow, wf.parent?_eq_some_iff.mpr ha]

/-- The label of the empty row behind the content of a block. -/
def endLabel (kind : Directive.Kind) (number : Nat) : Label :=
  (Label.element ⟨Word.row, []⟩).setAttribute Word.insertionAttribute (endPoint kind number).id

/-- Whether a block was placed around the children `mid` of `T`, which has `l` and `r` on both sides. -/
structure Surrounds (d d' : Document) (T : NodeId) (l mid r : List NodeId) (p : Placed) : Prop where
  grows : d.Grows d'
  children_eq : d'.children T = l ++ p.first :: (mid ++ p.last :: r)
  first_not_mem : p.first ∉ d.ids
  last_not_mem : p.last ∉ d.ids
  mem_or_eq : ∀ n ∈ d'.ids, n ∈ d.ids ∨ n = p.first ∨ n = p.last
  label?_first : d'.label? p.first = some (anchorLabel Word.row p.block.kind p.number)
  label?_last : d'.label? p.last = some (endLabel p.block.kind p.number)
  children_first : d'.children p.first = []
  children_last : d'.children p.last = []
  unchanged : ∀ n ∈ d.ids, n ≠ T → d.Unchanged d' n
  label?_table : d'.label? T = d.label? T
  parent?_table : d'.parent? T = d.parent? T

/-- Two new rows around children, which get the insertion points of a block. -/
theorem surrounds_attach {d₁ d₂ : Document} {mid : List NodeId} {first last : NodeId}
    (hT : T ∈ d.ids) (h₁ : d.PutsIn d₁ T first l (mid ++ r) (.element ⟨Word.row, []⟩))
    (h₂ : d₁.PutsIn d₂ T last (l ++ first :: mid) r (.element ⟨Word.row, []⟩)) (number : Nat) (block : Block) :
    Surrounds d ((d₂.attach first (startPoint block.kind number)).attach last (endPoint block.kind number))
      T l mid r ⟨number, block, first, last⟩ := by
  have wf₁ := h₁.grows.wellFormed
  have wf₂ := h₂.grows.wellFormed
  have hfirst : first ∈ d₁.ids := wf₁.mem_ids_of_label? h₁.label?_eq
  have hne : first ≠ last := fun he => h₂.not_mem (he ▸ hfirst)
  have hkept := h₂.unchanged first hfirst fun he => h₁.not_mem (he ▸ hT)
  have hstart := wf₂.grows_relabel first
    (Label.setAttribute Word.insertionAttribute (startPoint block.kind number).id)
  have wf₃ := hstart.wellFormed
  have hend := wf₃.grows_relabel last
    (Label.setAttribute Word.insertionAttribute (endPoint block.kind number).id)
  have hchildren : ∀ n, ((d₂.attach first (startPoint block.kind number)).attach last
      (endPoint block.kind number)).children n = d₂.children n := fun n =>
    (wf₃.children_relabel ..).trans (wf₂.children_relabel ..)
  have hold : ∀ n ∈ d.ids, d₂.Unchanged ((d₂.attach first (startPoint block.kind number)).attach last
      (endPoint block.kind number)) n := fun n hn =>
    (wf₂.unchanged_relabel (fun he : n = first => h₁.not_mem (he ▸ hn)) _).trans
      (wf₃.unchanged_relabel (fun he : n = last => h₂.not_mem (he ▸ h₁.grows.mem_ids n hn)) _)
  refine ⟨h₁.grows.trans (h₂.grows.trans (hstart.trans hend)), ?_, h₁.not_mem,
    fun hn => h₂.not_mem (h₁.grows.mem_ids _ hn), fun n hn => ?_, ?_, ?_, ?_, ?_, fun n hn hnT => ?_, ?_, ?_⟩
  · rw [hchildren, h₂.children_eq]
    simp
  · have hn₂ : n ∈ d₂.ids := wf₂.mem_ids_relabel (wf₃.mem_ids_relabel hn)
    rcases h₂.mem_or_eq n hn₂ with hn₁ | he
    · exact (h₁.mem_or_eq n hn₁).imp id .inl
    · exact .inr (.inr he)
  · refine (wf₃.label?_relabel_ne hne _).trans ((wf₂.label?_relabel_self ..).trans ?_)
    rw [hkept.label?_eq, h₁.label?_eq]
    rfl
  · refine (wf₃.label?_relabel_self ..).trans ?_
    rw [wf₂.label?_relabel_ne hne.symm, h₂.label?_eq]
    rfl
  · rw [hchildren, hkept.children_eq, h₁.children_new]
  · rw [hchildren, h₂.children_new]
  · exact ((h₁.unchanged n hn hnT).trans (h₂.unchanged n (h₁.grows.mem_ids n hn) hnT)).trans (hold n hn)
  · rw [(hold T hT).label?_eq, h₂.label?_parent, h₁.label?_parent]
  · rw [(hold T hT).parent?_eq, h₂.parent?_parent, h₁.parent?_parent]

/-- A block from row to row is placed around these rows, and what is between them. -/
theorem placeOne_rows {number : Nat} {block : Block} {p : Placed} {mid : List NodeId} (wf : d.WellFormed)
    (hT : d.isNamed T Word.table = true) (hchildren : d.children T = l ++ (mid ++ r))
    (ha : mid.head? = some a) (hb : mid.getLast? = some b) (hrow : d.isNamed a Word.row = true)
    (hrow' : d.isNamed b Word.row = true) (h : Spans d block.start.node block.stop.node a b)
    (hrun : placeOne number block d = .ok p d') :
    Surrounds d d' T l mid r p ∧ p.number = number ∧ p.block = block := by
  obtain ⟨after, rfl⟩ := List.head?_eq_some_iff.mp ha
  obtain ⟨before, hbefore⟩ := List.getLast?_eq_some_iff.mp hb
  have hmem : ∀ {c}, c ∈ a :: after → c ∈ d.children T := fun hc => by
    rw [hchildren]
    exact List.mem_append_right _ (List.mem_append_left _ hc)
  have hplace := place?_rows wf hT (mem_childrenNamed.mpr ⟨hmem (List.mem_cons_self ..), hrow⟩)
    (mem_childrenNamed.mpr ⟨hmem (by simp [hbefore]), hrow'⟩) h
  have hfirst := wf.putsIn_before (l := l) (t := a) (r := after ++ r) (by simpa using hchildren) Word.row
  have hlast := hfirst.grows.wellFormed.putsIn_after (p := T) (l := l ++ d.freshId :: before) (t := b) (r := r)
    (by rw [hfirst.children_eq, ← List.cons_append, hbefore]; simp) Word.row
  rw [List.append_assoc, List.cons_append, ← hbefore] at hlast
  rw [placeOne_eq hplace] at hrun
  cases hrun
  exact ⟨surrounds_attach (wf.mem_ids_of_isNamed hT) hfirst hlast number block, rfl, rfl⟩

end Block

end WordTemplate
