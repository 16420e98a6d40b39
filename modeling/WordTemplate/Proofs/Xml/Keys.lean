import WordTemplate.Proofs.Xml.Indifferent

/-!
# Keys of attributes

No element of a document that can be reached has two attributes with one key. The reader refuses a key
that is there already, an attribute that is set replaces the one with its key, and elements that are made
have no attributes, or those of another element.

* `keysDistinct_of_readTag`: what is read.
* `Edit.keysDistinct_apply`: what an edit keeps.
* `Reachable.keysDistinct`: all documents that can be reached.
-/

namespace WordTemplate.Xml

open Forest

namespace Label

variable {l : Label} {key : String}

/-- Whether no key is there twice. -/
def KeysDistinct : Label → Prop
  | element tag => (tag.attributes.map Prod.fst).Nodup
  | text _ => True

instance : DecidablePred KeysDistinct
  | element tag => inferInstanceAs (Decidable (tag.attributes.map Prod.fst).Nodup)
  | text _ => inferInstanceAs (Decidable True)

/-- What is erased is gone. -/
theorem KeysDistinct.attribute?_eraseAttribute (h : l.KeysDistinct) (key : String) :
    (l.eraseAttribute key).attribute? key = none := by
  cases l with
  | text content => rfl
  | element tag =>
    obtain ⟨name, attributes⟩ := tag
    show (Xml.eraseAttribute key attributes).lookup key = none
    change (attributes.map Prod.fst).Nodup at h
    induction attributes with
    | nil => rfl
    | cons a rest ih =>
      obtain ⟨k, v⟩ := a
      rw [List.map_cons, List.nodup_cons] at h
      rw [Xml.eraseAttribute] at ih ⊢
      rw [List.eraseP_cons]
      by_cases hk : k = key
      · subst hk
        rw [beq_self_eq_true, cond_true, List.lookup_eq_none_iff]
        intro b hb
        simpa using fun he : k = b.1 => h.1 (List.mem_map.mpr ⟨b, hb, he.symm⟩)
      · have hk' : (k == key) = false := by simpa using hk
        have hkey : (key == k) = false := by simpa using Ne.symm hk
        simp only [hk', cond_false, List.lookup_cons, hkey, ih h.2]

theorem KeysDistinct.eraseAttribute (h : l.KeysDistinct) (key : String) : (l.eraseAttribute key).KeysDistinct := by
  cases l with
  | text content => trivial
  | element tag => exact h.sublist (List.eraseP_sublist.map Prod.fst)

/-- A key that is set is the one that is there, or comes behind all others. -/
theorem keys_putAttribute (key value : String) (attributes : List Attribute) :
    (putAttribute key value attributes).map Prod.fst =
      if key ∈ attributes.map Prod.fst then attributes.map Prod.fst else attributes.map Prod.fst ++ [key] := by
  induction attributes with
  | nil => rfl
  | cons a rest ih =>
    obtain ⟨k, v⟩ := a
    rw [putAttribute]
    by_cases hk : k = key
    · simp [hk]
    · rw [if_neg hk, List.map_cons, ih, List.map_cons]
      split <;> simp_all [eq_comm]

theorem KeysDistinct.setAttribute (h : l.KeysDistinct) (key value : String) :
    (l.setAttribute key value).KeysDistinct := by
  cases l with
  | text content => trivial
  | element tag =>
    show ((putAttribute key value tag.attributes).map Prod.fst).Nodup
    rw [keys_putAttribute]
    split
    · exact h
    · next hkey =>
      refine List.nodup_append.mpr ⟨h, List.nodup_cons.mpr ⟨List.not_mem_nil, .nil⟩, fun k hk _ hkey' => ?_⟩
      rw [List.mem_singleton.mp hkey']
      rintro rfl
      exact hkey hk

end Label

/-! ## What is read -/

section Read

variable {seen : List (List Char × Nat)} {position : Nat} {s : List Char}

theorem key_of_readAttribute {a : AttributeRead} (h : readAttribute seen position s = .ok a) :
    a.key ∉ seen.map Prod.fst := by
  unfold readAttribute at h
  dsimp only at h
  split at h
  · next here afterEquals _ =>
    split at h
    · cases h
    · next hseen =>
      cases hvalue : readValue (here + 1) afterEquals with
      | error e => simp [hvalue, Except.map] at h
      | ok r =>
        simp only [hvalue, Except.map, Except.ok.injEq] at h
        rw [← h]
        rintro hmem
        obtain ⟨b, hb, hkey⟩ := List.mem_map.mp hmem
        have hne := List.lookup_eq_none_iff.mp hseen b hb
        simp [hkey] at hne
  · cases h

/-- The keys that are read differ from those before, and from each other. -/
theorem keys_of_readAttributes {attributes : List Attribute}
    (h : readAttributes seen position s = .ok attributes) :
    (attributes.map Prod.fst).Nodup ∧ ∀ k ∈ attributes.map Prod.fst, k.toList ∉ seen.map Prod.fst := by
  fun_induction readAttributes seen position s generalizing attributes with
  | case1 => cases h; simp
  | case2 => cases h
  | case3 seen position s here c cs hs a ha ih =>
    cases hrest : readAttributes ((a.key, a.position) :: seen) a.next a.rest with
    | error e => simp [hrest, Except.map] at h
    | ok rest =>
      simp only [hrest, Except.map, Except.ok.injEq] at h
      obtain ⟨hnodup, hnew⟩ := ih hrest
      rw [← h, List.map_cons, List.nodup_cons]
      refine ⟨⟨fun hmem => ?_, hnodup⟩, ?_⟩
      · simpa using hnew _ hmem
      · rintro k hk
        obtain rfl | hk := List.mem_cons.mp hk
        · simpa using key_of_readAttribute ha
        · exact fun hmem => hnew k hk (List.mem_cons_of_mem _ hmem)

theorem keysDistinct_of_readTag {tag : Element} (h : readTag s = .ok tag) : (Label.element tag).KeysDistinct := by
  unfold readTag at h
  dsimp only at h
  cases hread : readAttributes [] (byteLength (s.takeWhile (!isSpace ·))) (s.dropWhile (!isSpace ·)) with
  | error e => simp [hread, Except.map] at h
  | ok attributes =>
    simp only [hread, Except.map, Except.ok.injEq] at h
    rw [← h]
    exact (keys_of_readAttributes hread).1

/-- Whether the keys of a tag are distinct, if the token is one. -/
def Token.KeysDistinct : Token → Prop
  | startTag tag _ => (Label.element tag).KeysDistinct
  | _ => True

namespace Token

theorem keysDistinct_readEnd (inside : List Char) : (readEnd inside).KeysDistinct := trivial

theorem keysDistinct_readStart (inside : List Char) : (readStart inside).KeysDistinct := by
  unfold readStart
  dsimp only
  split
  · next h => exact keysDistinct_of_readTag h
  · trivial

variable {token : Token} {rest : List Char}

theorem keysDistinct_of_fail {cause : Error} (h : fail cause = (some token, rest)) : token.KeysDistinct := by
  cases h
  trivial

theorem keysDistinct_of_doctype (h : doctype s = (some token, rest)) : token.KeysDistinct := by
  unfold doctype at h
  split at h
  · split at h
    · exact keysDistinct_of_fail h
    · split at h
      · exact keysDistinct_of_fail h
      · cases h
  · exact keysDistinct_of_fail h

theorem keysDistinct_of_instruction (h : instruction s = (some token, rest)) : token.KeysDistinct := by
  unfold instruction at h
  split at h
  · exact keysDistinct_of_fail h
  · split at h
    · split at h <;> cases h
      trivial
    · exact keysDistinct_of_fail h

theorem keysDistinct_of_tag {read : List Char → Token} (hread : ∀ inside, (read inside).KeysDistinct)
    (h : tag read s = (some token, rest)) : token.KeysDistinct := by
  unfold tag at h
  split at h
  · cases h
    exact hread _
  · exact keysDistinct_of_fail h
  · exact keysDistinct_of_fail h

/-- Only start tags have keys. -/
theorem keysDistinct_of_next? (h : next? s = some (some token, rest)) : token.KeysDistinct := by
  unfold next? at h
  split at h
  · cases h
  · unfold comment at h
    split at h
    · split at h
      · cases h
      · exact keysDistinct_of_fail (Option.some.inj h)
    · exact keysDistinct_of_fail (Option.some.inj h)
  · unfold cdata at h
    split at h
    · exact keysDistinct_of_fail (Option.some.inj h)
    · split at h
      · cases h
        trivial
      · exact keysDistinct_of_fail (Option.some.inj h)
  · split at h
    · exact keysDistinct_of_doctype (Option.some.inj h)
    · exact keysDistinct_of_doctype (Option.some.inj h)
    · exact keysDistinct_of_fail (Option.some.inj h)
  · exact keysDistinct_of_instruction (Option.some.inj h)
  · exact keysDistinct_of_tag keysDistinct_readEnd (Option.some.inj h)
  · exact keysDistinct_of_tag keysDistinct_readStart (Option.some.inj h)
  · unfold reference at h
    dsimp only at h
    split at h
    · cases h
      trivial
    · exact keysDistinct_of_fail (Option.some.inj h)
  · cases h
    trivial

end Token

theorem keysDistinct_of_mem_tokens {token : Token} (h : token ∈ tokens s) : token.KeysDistinct := by
  fun_induction tokens s with
  | case1 => simp at h
  | case2 s first rest hnext ih =>
    rcases List.mem_append.mp h with h | h
    · obtain rfl : first = some token := by simpa using h
      exact Token.keysDistinct_of_next? hnext
    · exact ih h

/-! ### Trees -/

theorem mem_ofTrees_iff {trees : List (Label × Forest Label)} {l : Label} :
    l ∈ (ofTrees trees).toList ↔ ∃ c ∈ trees, l = c.1 ∨ l ∈ c.2.toList := by
  induction trees with
  | nil => simp [ofTrees, toList]
  | cons c trees ih =>
    obtain ⟨a, cs⟩ := c
    simp [ofTrees, toList, ih, or_assoc]

/-- Whether the keys of all elements of a tree are distinct. -/
def TreeKeysDistinct (c : Label × Forest Label) : Prop :=
  c.1.KeysDistinct ∧ ∀ l ∈ c.2.toList, l.KeysDistinct

/-- Whether the keys of an open element are distinct, and those of all elements read for it. -/
structure Frame.KeysDistinct (f : Frame) : Prop where
  tag : (Label.element f.tag).KeysDistinct
  children : ∀ c ∈ f.children, TreeKeysDistinct c

namespace Frame.KeysDistinct

variable {f : Frame} {label : Label} {below : Forest Label}

theorem forest (h : f.KeysDistinct) : ∀ l ∈ f.forest.toList, l.KeysDistinct := by
  intro l hl
  obtain ⟨c, hc, hlabel⟩ := mem_ofTrees_iff.mp hl
  have hin := h.children c (List.mem_reverse.mp hc)
  rcases hlabel with rfl | hbelow
  · exact hin.1
  · exact hin.2 l hbelow

theorem add (h : f.KeysDistinct) (hlabel : label.KeysDistinct) (hbelow : ∀ l ∈ below.toList, l.KeysDistinct) :
    (f.add label below).KeysDistinct :=
  ⟨h.tag, List.forall_mem_cons.mpr ⟨⟨hlabel, hbelow⟩, h.children⟩⟩

theorem addText (h : f.KeysDistinct) (content : String) : (f.addText content).KeysDistinct := by
  unfold Frame.addText
  split
  · split
    · next before below others hchildren =>
      have hin := h.children
      rw [hchildren, List.forall_mem_cons] at hin
      exact ⟨h.tag, List.forall_mem_cons.mpr ⟨⟨trivial, hin.1.2⟩, hin.2⟩⟩
    · exact h.add trivial fun l hl => by cases hl
  · exact h

end Frame.KeysDistinct

/-- Whether the keys of all elements that have been read are distinct. -/
structure Partial.KeysDistinct (p : Partial) : Prop where
  root : p.root.KeysDistinct
  inner : ∀ f ∈ p.inner, f.KeysDistinct

namespace Partial.KeysDistinct

variable {p : Partial}

theorem closeInner (h : p.KeysDistinct) : p.closeInner.KeysDistinct := by
  obtain ⟨root, inner, rootOpen⟩ := p
  match inner, h.inner with
  | [], _ => exact h
  | [f], hinner =>
    have hf := hinner f (by simp)
    exact ⟨h.root.add hf.tag hf.forest, fun f hf => by cases hf⟩
  | f :: g :: others, hinner =>
    simp only [List.forall_mem_cons] at hinner
    obtain ⟨hf, hg, hothers⟩ := hinner
    exact ⟨h.root, List.forall_mem_cons.mpr ⟨hg.add hf.tag hf.forest, hothers⟩⟩

theorem openTag (h : p.KeysDistinct) {tag : Element} (htag : (Label.element tag).KeysDistinct) (empty : Bool) :
    (p.openTag tag empty).KeysDistinct := by
  have hopened : Partial.KeysDistinct { p with inner := ⟨tag, []⟩ :: p.inner } :=
    ⟨h.root, List.forall_mem_cons.mpr ⟨⟨htag, by simp⟩, h.inner⟩⟩
  unfold Partial.openTag
  dsimp only
  split
  · exact hopened.closeInner
  · exact hopened

theorem addText (h : p.KeysDistinct) (content : String) : (p.addText content).KeysDistinct := by
  unfold Partial.addText
  split
  · next f others hinner =>
    have hin := h.inner
    rw [hinner, List.forall_mem_cons] at hin
    exact ⟨h.root, List.forall_mem_cons.mpr ⟨hin.1.addText content, hin.2⟩⟩
  · split
    · exact ⟨h.root.addText content, h.inner⟩
    · exact h

theorem endTag (h : p.KeysDistinct) {name : String} {p' : Partial} (hp : p.endTag name = .ok p') :
    p'.KeysDistinct := by
  unfold Partial.endTag at hp
  split at hp
  · split at hp
    · cases hp
      exact h.closeInner
    · cases hp
  · split at hp
    · split at hp
      · cases hp
        exact ⟨h.root, h.inner⟩
      · cases hp
    · cases hp

/-- Ending all elements puts each into the one around it. -/
theorem finish (h : p.KeysDistinct) : p.finish.KeysDistinct := by
  have hclose : ∀ (below : Option (Label × Forest Label)) (f : Frame), f.KeysDistinct →
      (∀ c ∈ below, TreeKeysDistinct c) →
      ((below.map fun c => f.add c.1 c.2).getD f).KeysDistinct := by
    intro below f hf hbelow
    cases below with
    | none => exact hf
    | some c => exact hf.add (hbelow c rfl).1 (hbelow c rfl).2
  refine hclose _ _ h.root ?_
  -- What is built from the elements inside, innermost first.
  refine List.foldlRecOn (motive := fun below => ∀ c ∈ below, TreeKeysDistinct c) p.inner _
    (fun c hc => by cases hc) fun below hbelow f hf c hc => ?_
  cases hc
  exact ⟨(h.inner f hf).tag, (hclose below f (h.inner f hf) hbelow).forest⟩

end Partial.KeysDistinct

theorem keysDistinct_of_apply {token : Token} {state : Option Partial} {p : Partial} (htoken : token.KeysDistinct)
    (hstate : ∀ p ∈ state, p.KeysDistinct) (h : token.apply state = .ok (some p)) : p.KeysDistinct := by
  cases token with
  | declaration =>
    cases h
    exact hstate p rfl
  | failure cause => cases h
  | text content =>
    obtain ⟨q, rfl, rfl⟩ := Option.map_eq_some_iff.mp (Except.ok.inj h)
    exact (hstate q rfl).addText content
  | startTag tag empty =>
    cases state with
    | none =>
      cases h
      exact ⟨⟨htoken, by simp⟩, by simp⟩
    | some q =>
      cases h
      exact (hstate q rfl).openTag htoken empty
  | endTag name =>
    cases state with
    | none => cases h
    | some q =>
      rw [Token.apply] at h
      cases hq : q.endTag name with
      | error e => simp [hq, Except.map] at h
      | ok q' =>
        simp only [hq, Except.map, Except.ok.injEq, Option.some.injEq] at h
        exact h ▸ (hstate q rfl).endTag hq

theorem keysDistinct_of_applyTokens {read : List Token} {state : Option Partial} {p : Partial}
    (hread : ∀ t ∈ read, t.KeysDistinct) (hstate : ∀ p ∈ state, p.KeysDistinct)
    (h : applyTokens state read = .ok (some p)) : p.KeysDistinct := by
  induction read generalizing state with
  | nil =>
    cases h
    exact hstate p rfl
  | cons t read ih =>
    rw [applyTokens] at h
    cases ht : t.apply state with
    | error e => simp [ht, Except.bind] at h
    | ok next =>
      rw [ht] at h
      obtain ⟨htoken, hrest⟩ := List.forall_mem_cons.mp hread
      refine ih hrest (fun q hq => ?_) h
      cases hq
      exact keysDistinct_of_apply htoken hstate ht

end Read

/-! ## What is edited -/

section Labelled

variable {K : Label → Prop} {f : Forest Node} {d : Document} {n t : NodeId}

theorem labelled_replace {p : Node → Bool} {put : Node → Forest Node → Forest Node} (h : Labelled K f)
    (hput : ∀ a cs, K a.label → Labelled K cs → Labelled K (put a cs)) : Labelled K (f.replace p put) :=
  Each.replace (K := fun _ => True) h ⟨fun _ _ _ => trivial, fun h _ _ => h⟩
    fun a _ cs _ _ ha hcs => ⟨hput a cs ha hcs, fun _ _ _ => trivial⟩

namespace Document

theorem WellFormed.labelled_relabel {change : Label → Label} (wf : d.WellFormed) (h : Labelled K d.trees)
    (hchange : ∀ l, K l → K (change l)) (n : NodeId) : Labelled K (d.relabel n change).trees := by
  rw [wf.relabel]
  exact labelled_replace h fun a cs ha hcs => each_tree.mpr ⟨hchange _ ha, hcs⟩

theorem WellFormed.labelled_treeAt (wf : d.WellFormed) (h : Labelled K d.trees) (n : NodeId) :
    Labelled K (d.treeAt n) := by
  rw [wf.treeAt]
  exact Each.treeAt h _

theorem labelled_prune (h : Labelled K d.trees) (n : NodeId) : Labelled K (d.trees.prune (·.id == n)) :=
  labelled_replace h fun _ _ _ _ => trivial

theorem WellFormed.labelled_detach (wf : d.WellFormed) (h : Labelled K d.trees) (n : NodeId) :
    Labelled K (d.detach n).trees := by
  rw [wf.detach]
  split
  · exact each_append.mpr ⟨wf.labelled_treeAt h n, labelled_prune h n⟩
  · exact h

theorem WellFormed.labelled_takeChildren (wf : d.WellFormed) (h : Labelled K d.trees) (n : NodeId) :
    Labelled K (d.takeChildren n).2.trees := by
  rw [wf.takeChildren]
  exact each_append.mpr ⟨(wf.labelled_treeAt h n).firstChildren,
    labelled_replace h fun a _ ha _ => each_tree.mpr ⟨ha, trivial⟩⟩

theorem labelled_addCopies {copies : Forest Label} (h : Labelled K d.trees) (hcopies : ∀ l ∈ copies.toList, K l) :
    Labelled K (d.addCopies copies).trees := by
  refine each_append.mpr ⟨labelled_iff.mpr ?_, h⟩
  rwa [labels_identify]

theorem WellFormed.labelled_append (wf : d.WellFormed) (h : Labelled K d.trees) (hn : n ∈ d.ids) (ht : t ∈ d.ids)
    (hnot : t ∉ Xml.ids (d.treeAt n)) : Labelled K (d.append t n).trees := by
  have wf' := (wf.grows_detach n).wellFormed
  have heq : d.append t n = (d.detach n).append t n := (wf.moveTo_detach ..).symm
  have hout := wf.labelled_detach h n
  rw [heq, wf'.append_eq (wf.receives_detach hn ht hnot)]
  exact labelled_replace (labelled_prune hout n) fun a cs ha hcs =>
    each_tree.mpr ⟨ha, each_append.mpr ⟨hcs, wf'.labelled_treeAt hout n⟩⟩

theorem WellFormed.labelled_insertBeside {put : Forest Node → Forest Node → Forest Node} (wf : d.WellFormed)
    (h : Labelled K d.trees) (hn : n ∈ d.ids) (hput : ∀ f g, put f g = f ++ g ∨ put f g = g ++ f)
    (hnot : ∀ p, d.parent? t = some p → p ∉ Xml.ids (d.treeAt n)) :
    Labelled K (d.insertBeside put t n).trees := by
  cases hp : d.parent? t with
  | none => rwa [insertBeside, hp]
  | some p =>
    have hout := wf.labelled_detach h n
    by_cases hne : t = n
    · rw [insertBeside, hp]
      simpa only [hne, if_true] using hout
    have wf' := (wf.grows_detach n).wellFormed
    have hsome : (d.parent? t).isSome := by rw [hp]; rfl
    have hsome' : ((d.detach n).parent? t).isSome := by rwa [wf.parent?_detach_of_ne hne]
    have hr := wf.receives_detach hn (wf.mem_ids_of_parent? hsome) (wf.not_mem_treeAt_of_parent? hp hne (hnot p hp))
    rw [← wf.insertBeside_detach hne put hsome, wf'.insertBeside_eq hr hsome']
    refine labelled_replace (labelled_prune hout n) fun a cs ha hcs => ?_
    have hmoved := wf'.labelled_treeAt hout n
    rcases hput ((d.detach n).treeAt n) (tree a cs) with heq | heq <;> rw [heq]
    · exact each_append.mpr ⟨hmoved, each_tree.mpr ⟨ha, hcs⟩⟩
    · exact each_append.mpr ⟨each_tree.mpr ⟨ha, hcs⟩, hmoved⟩

theorem labelled_ofTree {tag : Element} {children : Forest Label} (htag : K (.element tag))
    (hchildren : ∀ l ∈ children.toList, K l) : Labelled K (ofTree tag children).trees := by
  rw [ofTree, labelled_iff, labels_identify]
  simpa [tree, toList] using And.intro htag hchildren

theorem WellFormed.labelled_setText (wf : d.WellFormed) (h : Labelled K d.trees) (hn : n ∈ d.ids)
    {content : String} (hcontent : K (.text content)) : Labelled K (d.setText n content).trees := by
  unfold setText
  split
  · exact wf.labelled_relabel h (fun _ _ => hcontent) n
  · have htaken := wf.labelled_takeChildren h n
    dsimp only
    split
    · exact htaken
    · have hgrows := wf.grows_takeChildren n
      have hr := hgrows.wellFormed.receives_copy (.text content) .nil (hgrows.mem_ids n hn)
      refine (hgrows.wellFormed.grows_addCopies _).wellFormed.labelled_append
        (labelled_addCopies htaken ?_) hr.mem_ids hr.target_mem_ids hr.target_not_mem
      simpa [tree, toList] using hcontent

theorem WellFormed.labelled_divideAfter (wf : d.WellFormed) (h : Labelled K d.trees) (container place : NodeId) :
    Labelled K (d.divideAfter container place).2.trees :=
  wf.each_divideAfter h (divisible_labelled K _) (wf.movable_of_forall h container) fun _ _ => trivial

theorem WellFormed.labelled_divideBefore (wf : d.WellFormed) (h : Labelled K d.trees) (container place : NodeId) :
    Labelled K (d.divideBefore container place).2.trees :=
  wf.each_divideBefore h (divisible_labelled K _) (wf.movable_of_forall h container) fun _ _ => trivial

end Document

end Labelled

/-- Whether no element has a key twice. -/
abbrev Document.KeysDistinct (d : Document) : Prop :=
  Labelled Label.KeysDistinct d.trees

theorem Document.WellFormed.keysDistinct_of_label? {d : Document} {n : NodeId} {l : Label} (wf : d.WellFormed)
    (h : d.KeysDistinct) (hl : d.label? n = some l) : l.KeysDistinct := by
  obtain ⟨node, cs, rfl, ht⟩ := wf.exists_treeAt (wf.mem_ids_of_label? hl)
  have htree := wf.labelled_treeAt h node.id
  rw [ht] at htree
  rw [label?, ht] at hl
  exact Option.some.inj hl ▸ (each_tree.mp htree).1

namespace Edit

open Document

variable {d : Document} {e : Edit}

/-- Every permitted call keeps the keys distinct. -/
theorem keysDistinct_apply (wf : d.WellFormed) (hids : ∀ n : NodeId, n.number < d.fresh → n ∈ d.ids)
    (h : e.Permitted d) (hkeys : d.KeysDistinct) : (e.apply d).KeysDistinct := by
  have hnodes := fun n hn => hids n (h.lt_fresh n hn)
  have hout := fun n p ha => h.not_mem_treeAt wf (n := n) (p := p) ha
  cases e with
  | createElement name => exact labelled_addCopies hkeys (by simp [tree, toList, Label.KeysDistinct])
  | createText content => exact labelled_addCopies hkeys (by simp [tree, toList, Label.KeysDistinct])
  | setText n content => exact wf.labelled_setText hkeys (hnodes n (by simp [nodes])) trivial
  | setAttribute n key value => exact wf.labelled_relabel hkeys (fun _ hl => hl.setAttribute key value) n
  | eraseAttribute n key => exact wf.labelled_relabel hkeys (fun _ hl => hl.eraseAttribute key) n
  | detach n => exact wf.labelled_detach hkeys n
  | append parent n =>
    exact wf.labelled_append hkeys (hnodes n (by simp [nodes])) (hnodes parent (by simp [nodes])) (hout n parent rfl)
  | insertBefore reference n =>
    refine wf.labelled_insertBeside hkeys (hnodes n (by simp [nodes])) (fun f g => .inl rfl) fun p hp => hout n p ?_
    rw [attachment?, hp]
    rfl
  | insertAfter reference n =>
    refine wf.labelled_insertBeside hkeys (hnodes n (by simp [nodes])) (fun f g => .inr rfl) fun p hp => hout n p ?_
    rw [attachment?, hp]
    rfl
  | takeChildren n => exact wf.labelled_takeChildren hkeys n
  | copy n => exact labelled_addCopies hkeys (labelled_iff.mp (wf.labelled_treeAt hkeys n))
  | divideAfter container place => exact wf.labelled_divideAfter hkeys container place
  | divideBefore container place => exact wf.labelled_divideBefore hkeys container place

end Edit

theorem Document.keysDistinct_of_readDocument {markup : String} {d : Document} (h : readDocument markup = .ok d) :
    d.KeysDistinct := by
  unfold readDocument at h
  dsimp only at h
  cases hstate : applyTokens none (tokens (dropByteOrderMark markup.toList)) with
  | error e => simp [hstate, Except.bind] at h
  | ok state =>
    simp only [hstate, Except.bind] at h
    obtain _ | p := state
    · cases h
    cases h
    have hp := (keysDistinct_of_applyTokens (fun t ht => keysDistinct_of_mem_tokens ht)
      (fun q hq => by cases hq) hstate).finish
    exact labelled_ofTree hp.tag hp.forest

/-- No element of a document that can be reached has a key twice. -/
theorem Reachable.keysDistinct {d : Document} (h : Reachable d) : d.KeysDistinct := by
  induction h with
  | new name => exact Document.labelled_ofTree (by simp [Label.KeysDistinct]) (by simp [toList])
  | read h => exact Document.keysDistinct_of_readDocument h
  | edit hd hpermitted ih => exact Edit.keysDistinct_apply hd.wellFormed.1 hd.wellFormed.2 hpermitted ih

end WordTemplate.Xml
