import WordTemplate.Proofs.Word.Writing
import WordTemplate.Proofs.Xml.Fence
import WordTemplate.Proofs.Xml.Moves

/-!
# Changes that leave tables as they are

Preparing a document, filling in values and cleaning up put in texts and breaks and take out texts, runs and
paragraphs. Whatever of this is done, the rows of every table and the cells of every row stay, in their
order. `Retouches` says so, and that a node that was there is at most taken out, never put elsewhere.

* `Retouches.detach`, `Retouches.insertBeside` and the like: the changes of this sort.
-/

namespace WordTemplate.Xml.Document

open Forest

variable {d₀ d d' : Document} {n m p target : NodeId} {name : String} {R : NodeId → Prop}

/-- The children that are elements named `name`. -/
def childrenNamed (d : Document) (p : NodeId) (name : String) : List NodeId :=
  (d.children p).filter (d.isNamed · name)

/-- The nodes without insertion points. -/
def unmarked (d : Document) (ns : List NodeId) : List NodeId :=
  ns.filter fun n => (d.attribute? n Word.insertionAttribute).isNone

theorem mem_childrenNamed : n ∈ d.childrenNamed p name ↔ n ∈ d.children p ∧ d.isNamed n name = true :=
  List.mem_filter

theorem childrenNamed_congr (hchildren : d'.children p = d.children p)
    (hname : ∀ n ∈ d.children p, d'.name? n = d.name? n) (name : String) :
    d'.childrenNamed p name = d.childrenNamed p name := by
  rw [childrenNamed, childrenNamed, hchildren]
  refine List.filter_congr fun n hn => ?_
  rw [isNamed, isNamed, hname n hn]

theorem isNamed_eq_false_of_ne {other : String} (h : d.isNamed n name = true) (hne : other ≠ name) :
    d.isNamed n other = false := by
  rw [isNamed, beq_iff_eq] at h
  rw [isNamed, h]
  simpa using Ne.symm hne

/-- Whether `n` is neither a row nor a cell. -/
def OffGrid (d : Document) (n : NodeId) : Prop :=
  d.isNamed n Word.row = false ∧ d.isNamed n Word.cell = false

theorem offGrid_of_isNamed (h : d.isNamed n name = true) (hrow : name ≠ Word.row) (hcell : name ≠ Word.cell) :
    d.OffGrid n :=
  ⟨isNamed_eq_false_of_ne h (Ne.symm hrow), isNamed_eq_false_of_ne h (Ne.symm hcell)⟩

/-- Whether between `d₀` and `d` tables have stayed as they are. Nothing was taken out but nodes with `R`. -/
structure Retouches (R : NodeId → Prop) (d₀ d : Document) : Prop where
  grows : d₀.Grows d
  name?_eq : ∀ n ∈ d₀.ids, d.name? n = d₀.name? n
  label?_eq : ∀ n ∈ d₀.ids, ¬ d₀.OffGrid n → d.label? n = d₀.label? n
  parent?_eq : ∀ n ∈ d₀.ids, d.parent? n = d₀.parent? n ∨ R n ∧ d.parent? n = none
  /-- The rows and cells below a node that is no text are the same. -/
  childrenNamed_eq : ∀ p ∈ d₀.ids, d₀.isNamed p Word.text = false → ∀ name ∈ [Word.row, Word.cell],
    d.childrenNamed p name = d₀.childrenNamed p name
  /-- A row stays empty. -/
  children_eq_nil : ∀ p ∈ d₀.ids, d₀.isNamed p Word.row = true → d₀.children p = [] → d.children p = []
  /-- No node gets or loses an insertion point. -/
  attribute?_eq : ∀ n, d.attribute? n Word.insertionAttribute = d₀.attribute? n Word.insertionAttribute

theorem OffGrid.congr (h : d.OffGrid n) (hname : d'.name? n = d.name? n) : d'.OffGrid n := by
  rw [OffGrid, isNamed, isNamed, hname]
  exact h

theorem WellFormed.label?_eq_none (wf : d.WellFormed) (hn : n ∉ d.ids) : d.label? n = none := by
  cases hl : d.label? n with
  | none => rfl
  | some l => exact absurd (wf.mem_ids_of_label? hl) hn

theorem WellFormed.attribute?_eq_none (wf : d.WellFormed) (hn : n ∉ d.ids) (key : String) :
    d.attribute? n key = none := by
  rw [attribute?, wf.label?_eq_none hn]
  rfl

/-- Whether `R` holds of all that is in a text. -/
structure TextsLoose (R : NodeId → Prop) (d : Document) : Prop where
  wellFormed : d.WellFormed
  of_mem : ∀ p m, d.isNamed p Word.text = true → m ∈ d.children p → R m

theorem WellFormed.textsLoose (wf : d.WellFormed) : d.TextsLoose fun _ => True :=
  ⟨wf, fun _ _ _ _ => trivial⟩

namespace Retouches

theorem refl (wf : d.WellFormed) : d.Retouches R d :=
  ⟨.refl wf, fun _ _ => rfl, fun _ _ _ => rfl, fun _ _ => .inl rfl, fun _ _ _ _ _ => rfl,
    fun _ _ _ h => h, fun _ => rfl⟩

theorem isNamed_eq (h : d₀.Retouches R d) (hn : n ∈ d₀.ids) (name : String) :
    d.isNamed n name = d₀.isNamed n name := by
  rw [isNamed, isNamed, h.name?_eq n hn]

theorem offGrid_iff (h : d₀.Retouches R d) (hn : n ∈ d₀.ids) : d.OffGrid n ↔ d₀.OffGrid n := by
  rw [OffGrid, OffGrid, h.isNamed_eq hn, h.isNamed_eq hn]

theorem loose (h : d₀.Retouches R d) (hR : d₀.TextsLoose R) (hn : d.isNamed n Word.text = true)
    (hm : m ∈ d₀.ids) (hmem : m ∈ d.children n) : R m := by
  have hp := h.grows.wellFormed.parent?_eq_some_iff.mpr hmem
  rcases h.parent?_eq m hm with he | ⟨-, he⟩ <;> rw [he] at hp
  · have hmem := hR.wellFormed.parent?_eq_some_iff.mp hp
    exact hR.of_mem n m ((h.isNamed_eq (hR.wellFormed.mem_ids_of_children hmem) _).symm.trans hn) hmem
  · cases hp

/-- The children of a node stay without insertion points. -/
theorem plain (h : d₀.Retouches R d) (wf : d₀.WellFormed)
    (hn : ∀ c ∈ d₀.children n, d₀.attribute? c Word.insertionAttribute = none) :
    ∀ c ∈ d.children n, d.attribute? c Word.insertionAttribute = none := by
  intro c hc
  rw [h.attribute?_eq]
  by_cases hmem : c ∈ d₀.ids
  · have hp := h.grows.wellFormed.parent?_eq_some_iff.mpr hc
    rcases h.parent?_eq c hmem with he | ⟨-, he⟩ <;> rw [he] at hp
    · exact hn c (wf.parent?_eq_some_iff.mp hp)
    · cases hp
  · exact wf.attribute?_eq_none hmem _

/-- One more change. -/
theorem step (h : d₀.Retouches R d) (hgrows : d.Grows d') (hname : ∀ n ∈ d.ids, d'.name? n = d.name? n)
    (hlabel : ∀ n ∈ d.ids, ¬ d.OffGrid n → d'.label? n = d.label? n)
    (hparent : ∀ n ∈ d₀.ids, d'.parent? n = d.parent? n ∨ R n ∧ d'.parent? n = none)
    (hnamed : ∀ p ∈ d.ids, d.isNamed p Word.text = false → ∀ name ∈ [Word.row, Word.cell],
      d'.childrenNamed p name = d.childrenNamed p name)
    (hnil : ∀ p ∈ d.ids, d.isNamed p Word.row = true → d.children p = [] → d'.children p = [])
    (hattribute : ∀ n, d'.attribute? n Word.insertionAttribute = d.attribute? n Word.insertionAttribute) :
    d₀.Retouches R d' where
  grows := h.grows.trans hgrows
  name?_eq n hn := (hname n (h.grows.mem_ids n hn)).trans (h.name?_eq n hn)
  label?_eq n hn hgrid := (hlabel n (h.grows.mem_ids n hn) (mt (h.offGrid_iff hn).mp hgrid)).trans
    (h.label?_eq n hn hgrid)
  parent?_eq n hn := by
    rcases hparent n hn with he | he
    · rw [he]
      exact h.parent?_eq n hn
    · exact .inr he
  childrenNamed_eq p hp htext name hmem :=
    (hnamed p (h.grows.mem_ids p hp) ((h.isNamed_eq hp _).trans htext) name hmem).trans
      (h.childrenNamed_eq p hp htext name hmem)
  children_eq_nil p hp hrow hempty := hnil p (h.grows.mem_ids p hp) ((h.isNamed_eq hp _).trans hrow)
    (h.children_eq_nil p hp hrow hempty)
  attribute?_eq n := (hattribute n).trans (h.attribute?_eq n)

theorem trans (h : d₀.Retouches R d) (h' : d.Retouches R d') : d₀.Retouches R d' :=
  h.step h'.grows h'.name?_eq h'.label?_eq (fun n hn => h'.parent?_eq n (h.grows.mem_ids n hn))
    h'.childrenNamed_eq h'.children_eq_nil h'.attribute?_eq

section Changes

variable (h : d₀.Retouches R d)
include h

theorem detach (hn : d.OffGrid n) (hR : R n) : d₀.Retouches R (d.detach n) := by
  have wf := h.grows.wellFormed
  have hlabel := label?_detach wf n
  refine h.step (wf.grows_detach n) (fun m _ => by rw [name?, name?, hlabel m]) (fun m _ _ => hlabel m)
    (fun m _ => ?_) (fun p _ _ name hname => ?_) (fun p _ _ hp => ?_)
    fun m => by rw [attribute?, attribute?, hlabel m]
  · by_cases hm : m = n
    · exact .inr ⟨hm ▸ hR, wf.parent?_detach (.inl hm)⟩
    · exact .inl (wf.parent?_detach_of_ne hm)
  · have hnamed : d.isNamed n name = false := by
      rcases List.mem_cons.mp hname with rfl | hname
      · exact hn.1
      · exact List.mem_singleton.mp hname ▸ hn.2
    rw [childrenNamed, childrenNamed, wf.children_detach, List.filter_filter]
    refine List.filter_congr fun c _ => ?_
    rw [isNamed, name?, hlabel c, ← name?, ← isNamed, Bool.and_eq_left_iff_imp]
    intro hc
    simpa using fun he : c = n => by rw [he, hnamed] at hc; cases hc
  · rw [wf.children_detach, hp]
    rfl

theorem relabel {change : Label → Label} (hname : ∀ l, d.label? n = some l → (change l).name? = l.name?)
    (hgrid : d.OffGrid n)
    (hattribute : ∀ l, d.label? n = some l →
      (change l).attribute? Word.insertionAttribute = l.attribute? Word.insertionAttribute) :
    d₀.Retouches R (d.relabel n change) := by
  have wf := h.grows.wellFormed
  have hnames : ∀ m, (d.relabel n change).name? m = d.name? m := by
    intro m
    by_cases hm : m = n
    · subst hm
      rw [name?, name?, wf.label?_relabel_self]
      cases hl : d.label? m with
      | none => rfl
      | some l => exact hname l hl
    · rw [name?, name?, wf.label?_relabel_ne hm]
  refine h.step (wf.grows_relabel n change) (fun m _ => hnames m) (fun m _ hm => ?_) (fun m _ => .inl ?_)
    (fun p _ _ name _ => ?_) (fun p _ _ hp => by rw [wf.children_relabel, hp]) fun m => ?_
  · exact wf.label?_relabel_ne (fun he => hm (by rwa [he])) change
  · exact wf.parent?_congr (wf.grows_relabel n change).wellFormed fun p => by rw [wf.children_relabel]
  · exact childrenNamed_congr (wf.children_relabel n p change) (fun m _ => hnames m) name
  · by_cases hm : m = n
    · subst hm
      rw [attribute?, attribute?, wf.label?_relabel_self]
      cases hl : d.label? m with
      | none => rfl
      | some l => exact hattribute l hl
    · rw [attribute?, attribute?, wf.label?_relabel_ne hm]

theorem setAttribute (hgrid : d.OffGrid n) (key : String) (hkey : Word.insertionAttribute ≠ key)
    (value : String) : d₀.Retouches R (d.setAttribute n key value) :=
  h.relabel (fun _ _ => Label.name?_setAttribute) hgrid fun _ _ => Label.attribute?_setAttribute_ne hkey

theorem eraseAttribute (hgrid : d.OffGrid n) (key : String) (hkey : Word.insertionAttribute ≠ key) :
    d₀.Retouches R (d.eraseAttribute n key) :=
  h.relabel (fun _ _ => Label.name?_eraseAttribute) hgrid fun _ _ => Label.attribute?_eraseAttribute_ne hkey

/-- The children of a text are taken out. -/
theorem takeChildren (hR : d₀.TextsLoose R) (hn : d.isNamed n Word.text = true) :
    d₀.Retouches R (d.takeChildren n).2 := by
  have wf := h.grows.wellFormed
  have hgrows := wf.grows_takeChildren n
  have hlabel : ∀ m, (d.takeChildren n).2.label? m = d.label? m :=
    Moves.label?_eq_of_grows wf hgrows (wf.fresh_takeChildren n) fun m hm => wf.label?_takeChildren n hm
  refine h.step hgrows (fun m _ => by rw [name?, name?, hlabel m]) (fun m _ _ => hlabel m) (fun m hm => ?_)
    (fun p _ hp name _ => ?_) (fun p _ _ hp => ?_) fun m => by rw [attribute?, attribute?, hlabel m]
  · by_cases hmem : m ∈ d.children n
    · refine .inr ⟨h.loose hR hn hm hmem, ?_⟩
      cases hp : (d.takeChildren n).2.parent? m with
      | none => rfl
      | some p =>
        rw [hgrows.wellFormed.parent?_eq_some_iff, wf.children_takeChildren] at hp
        split at hp
        · cases hp
        · next hne =>
          exact absurd (Option.some.inj ((wf.parent?_eq_some_iff.mpr hp).symm.trans
            (wf.parent?_eq_some_iff.mpr hmem))) hne
    · exact .inl (wf.parent?_takeChildren_of_not_mem hmem)
  · refine childrenNamed_congr ?_ (fun m _ => by rw [name?, name?, hlabel m]) name
    rw [wf.children_takeChildren, if_neg]
    rintro rfl
    rw [hn] at hp
    cases hp
  · rw [wf.children_takeChildren, hp, ite_self]

theorem addCopies {copies : Forest Label}
    (hcopies : ∀ l ∈ copies.toList, l.attribute? Word.insertionAttribute = none) :
    d₀.Retouches R (d.addCopies copies) := by
  have wf := h.grows.wellFormed
  have hsame := fun m (hm : m ∈ d.ids) => wf.unchanged_addCopies copies hm
  refine h.step (wf.grows_addCopies copies) (fun m hm => ?_) (fun m hm _ => (hsame m hm).label?_eq)
    (fun m hm => .inl (hsame m (h.grows.mem_ids m hm)).parent?_eq) (fun p hp _ name _ => ?_)
    (fun p hp _ hnil => by rw [(hsame p hp).children_eq, hnil]) fun m => ?_
  · rw [name?, name?, (hsame m hm).label?_eq]
  · refine childrenNamed_congr (hsame p hp).children_eq (fun m hm => ?_) name
    rw [name?, name?, (hsame m (wf.mem_ids_of_mem_children hm)).label?_eq]
  · by_cases hm : m ∈ d.ids
    · rw [attribute?, attribute?, (hsame m hm).label?_eq]
    · rw [wf.attribute?_eq_none hm, attribute?]
      cases hl : (d.addCopies copies).label? m with
      | none => rfl
      | some l => exact hcopies l (wf.mem_of_label?_addCopies hm hl)

/-- A node that was not there in the beginning is put behind the children of a node that is no row. -/
theorem append (hr : d.Receives n target) (hnew : n ∉ d₀.ids) (hn : d.OffGrid n)
    (ht : d.isNamed target Word.row = false) : d₀.Retouches R (d.append target n) := by
  have wf := h.grows.wellFormed
  have hgrows := wf.grows_append hr
  have hlabel : ∀ m, (d.append target n).label? m = d.label? m :=
    Moves.label?_eq_of_grows wf hgrows (by rw [wf.append_eq hr, remake_fresh]) fun m hm => wf.label?_append hr hm
  refine h.step hgrows (fun m _ => by rw [name?, name?, hlabel m]) (fun m _ _ => hlabel m)
    (fun m hm => .inl (wf.parent?_append_of_ne hr fun he => hnew (he ▸ hm))) (fun p _ _ name hname => ?_)
    (fun p _ hrow hp => ?_) fun m => by rw [attribute?, attribute?, hlabel m]
  · have hnamed : d.isNamed n name = false := by
      rcases List.mem_cons.mp hname with rfl | hname
      · exact hn.1
      · exact List.mem_singleton.mp hname ▸ hn.2
    have hsame : ∀ m, (d.append target n).isNamed m name = d.isNamed m name := fun m => by
      rw [isNamed, isNamed, name?, name?, hlabel m]
    rw [childrenNamed, childrenNamed, wf.children_append hr]
    simp only [hsame]
    split
    · next he => rw [he, List.filter_append, List.filter_singleton, hnamed]; simp
    · rfl
  · rw [wf.children_append hr, if_neg]
    · exact hp
    · rintro rfl
      rw [ht] at hrow
      cases hrow

/-- A node that was not there in the beginning is put beside another one. -/
theorem insertBeside (hr : d.Receives n target) {put : Forest Node → Forest Node → Forest Node}
    (hput : ∀ f g, put f g = f ++ g ∨ put f g = g ++ f) (hnew : n ∉ d₀.ids) (hn : d.OffGrid n) :
    d₀.Retouches R (d.insertBeside put target n) := by
  have wf := h.grows.wellFormed
  cases hp : d.parent? target with
  | none =>
    rw [Document.insertBeside, hp]
    exact h
  | some q =>
    have hp : (d.parent? target).isSome := by rw [hp]; rfl
    have hlabel := (wf.moves_insertBeside hr hp hput).label?_eq
    obtain ⟨a, as, rfl, ha⟩ := wf.exists_treeAt hr.target_mem_ids
    obtain ⟨b, bs, rfl, hb⟩ := wf.exists_treeAt hr.mem_ids
    refine h.step (wf.grows_beside hr hput) (fun m _ => by rw [name?, name?, hlabel m])
      (fun m _ _ => hlabel m)
      (fun m hm => .inl (wf.parent?_insertBeside_of_ne hr hp hput fun he => hnew (he ▸ hm)))
      (fun p _ _ name hname => ?_) (fun p _ _ hnil => ?_) fun m => by rw [attribute?, attribute?, hlabel m]
    · have hnamed : d.isNamed b.id name = false := by
        rcases List.mem_cons.mp hname with rfl | hname
        · exact hn.1
        · exact List.mem_singleton.mp hname ▸ hn.2
      have hsame : ∀ m, (d.insertBeside put a.id b.id).isNamed m name = d.isNamed m name := fun m => by
        rw [isNamed, isNamed, name?, name?, hlabel m]
      rw [childrenNamed, childrenNamed, wf.children_insertBeside hr hp hput, ha, hb]
      simp only [hsame]
      induction d.children p with
      | nil => rfl
      | cons i l ih =>
        rw [List.flatMap_cons, List.filter_append, ih]
        split
        · next hi =>
          subst hi
          rcases hput (tree b bs) (tree a as) with he | he <;> rw [he] <;>
            simp [List.filter_cons, hnamed] <;> split <;> simp
        · simp [List.filter_cons]; split <;> simp
    · rw [wf.children_insertBeside hr hp hput, hnil]
      rfl

end Changes

end Retouches

end WordTemplate.Xml.Document
