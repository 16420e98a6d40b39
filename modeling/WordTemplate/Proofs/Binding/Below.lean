import WordTemplate.Proofs.Binding.Substitution
import WordTemplate.Proofs.Block.Separation
import WordTemplate.Proofs.Word.Texts

/-!
# Writing values changes nothing beyond

A value is written into a text, and its other lines go beside that text. So a part of the document is left
alone if the text is not in it, nor the nodes next to the text (`Free`). What is beyond a scope is such a
part for all texts in the scope.

* `Free.leaves_writeValue`: writing a value.
* `Binding.Driver.RewritesPlaceholders.staysBelow`: a driver that writes values stays below the node it is
  given.
-/

namespace WordTemplate

open Xml Forest Binding

namespace Xml.Document

variable {d d' : Document} {P : NodeId → Prop} {n root : NodeId}

/-- Whether none of `n`, its parent and its children is in the part `P`. -/
structure Free (d : Document) (P : NodeId → Prop) (n : NodeId) : Prop extends Clear d P n where
  not_children : ∀ m ∈ d.children n, ¬ P m

theorem Free.of_leaves (h : d.Free P n) (wf : d.WellFormed) (hl : d.Leaves d' P) : d'.Free P n where
  not_mem := h.not_mem
  not_child m hm := by
    rw [(hl.unchanged m hm).children_eq]
    exact h.not_child m hm
  not_children m hmem hm := by
    have hp := hl.grows.wellFormed.parent?_eq_some_iff.mpr hmem
    rw [(hl.unchanged m hm).parent?_eq, wf.parent?_eq_some_iff] at hp
    exact h.not_children m hp hm

theorem WellFormed.free_of_not_mem (wf : d.WellFormed) (hP : ∀ m, P m → m ∈ d.ids) (hn : n ∉ d.ids) :
    d.Free P n where
  not_mem hm := hn (hP n hm)
  not_child _ _ hmem := hn (wf.mem_ids_of_mem_children hmem)
  not_children m hmem := by
    rw [wf.children_eq_nil hn] at hmem
    cases hmem

section Write

variable (wf : d.WellFormed) (hP : ∀ m, P m → m ∈ d.ids) (hn : d.Free P n) (hmem : n ∈ d.ids)
include wf hP hn hmem

theorem Free.leaves_setText (content : String) : d.Leaves (d.setText n content) P := by
  have hchange : d.Leaves (if content.isEmpty then (d.takeChildren n).2
      else ((d.takeChildren n).2.createText content).2.append n
        ((d.takeChildren n).2.createText content).1) P := by
    have hempty := wf.leaves_takeChildren hP hn.not_mem hn.not_children
    split
    · exact hempty
    · have hP₁ := fun m hm => hempty.grows.mem_ids m (hP m hm)
      have wf₁ := hempty.grows.wellFormed
      have hmakes := makes_addCopies wf₁ (.text content) .nil
      have hmade := hempty.trans (wf₁.leaves_addCopies hP₁ (tree (.text content) .nil))
      refine hmade.trans (hmade.grows.wellFormed.leaves_append
        (fun m hm => hmade.grows.mem_ids m (hP m hm))
        (hmakes.receives wf₁ (hempty.grows.mem_ids n hmem)) (fun hm => ?_) hn.not_mem)
      exact Nat.lt_irrefl _ (wf₁.lt_fresh _ (hP₁ _ hm))
  unfold Document.setText
  split
  · exact wf.leaves_relabel hn.not_mem _
  · exact hchange

theorem Free.leaves_writeText (content : String) : d.Leaves (d.writeText n content) P := by
  have hspace : d.Leaves (d.setAttribute n Word.spaceAttribute "preserve") P :=
    wf.leaves_relabel hn.not_mem _
  exact hspace.trans ((hn.of_leaves wf hspace).leaves_setText hspace.grows.wellFormed
    (fun m hm => hspace.grows.mem_ids m (hP m hm)) (hspace.grows.mem_ids n hmem) content)

omit hn hmem in
theorem leaves_createTextElement (content : String) : d.Leaves (d.createTextElement content).2 P := by
  have hmakes := makes_addCopies wf (.element ⟨Word.text, []⟩) .nil
  have hmade := wf.leaves_addCopies hP (tree (.element ⟨Word.text, []⟩) .nil)
  have hnew : d.Free P d.freshId := wf.free_of_not_mem hP fun h => Nat.lt_irrefl _ (wf.lt_fresh _ h)
  exact hmade.trans ((hnew.of_leaves wf hmade).leaves_writeText hmade.grows.wellFormed
    (fun m hm => hmade.grows.mem_ids m (hP m hm)) hmakes.mem_ids content)

/-- Putting a new tree behind a node. -/
theorem Free.leaves_insertAfter {d₁ : Document} {m : NodeId} {f : Forest Node} (h₁ : d.Leaves d₁ P)
    (hmakes : d.Makes d₁ m f) :
    d.Leaves (d₁.insertAfter n m) P ∧ (d₁.insertAfter n m).Free P m ∧ m ∈ (d₁.insertAfter n m).ids := by
  have hnew : d.Free P m := wf.free_of_not_mem hP fun h => hmakes.not_mem wf h
    (hmakes.treeAt_eq ▸ h₁.grows.wellFormed.mem_treeAt_self hmakes.mem_ids)
  have hput := h₁.trans (h₁.grows.wellFormed.leaves_insertBeside
    (fun m hm => h₁.grows.mem_ids m (hP m hm)) (hmakes.receives wf hmem)
    (j := fun moved sibling => sibling ++ moved) (fun _ _ => .inr rfl) hnew.not_mem
    (hn.of_leaves wf h₁).toClear)
  refine ⟨hput, hnew.of_leaves wf hput, ?_⟩
  exact (h₁.grows.wellFormed.grows_beside (hmakes.receives wf hmem) fun _ _ => .inr rfl).mem_ids _
    hmakes.mem_ids

theorem Free.leaves_insertLine (line : String) :
    d.Leaves (d.insertLine n line).2 P ∧ (d.insertLine n line).2.Free P (d.insertLine n line).1 ∧
      (d.insertLine n line).1 ∈ (d.insertLine n line).2.ids := by
  have hmade := wf.leaves_addCopies hP (tree (.element ⟨Word.lineBreak, []⟩) .nil)
  obtain ⟨h₁, hbr, hbrmem⟩ := hn.leaves_insertAfter wf hP hmem hmade
    (makes_addCopies wf (.element ⟨Word.lineBreak, []⟩) .nil)
  generalize hd₁ : (d.addCopies (tree (.element ⟨Word.lineBreak, []⟩) .nil)).insertAfter n d.freshId = d₁
    at h₁ hbr hbrmem
  have wf₁ := h₁.grows.wellFormed
  have hP₁ := fun m hm => h₁.grows.mem_ids m (hP m hm)
  obtain ⟨f, -, hmakes⟩ := createTextElement_spec wf₁ line
  obtain ⟨h₂, ht, htmem⟩ := hbr.leaves_insertAfter wf₁ hP₁ hbrmem
    (leaves_createTextElement wf₁ hP₁ line) hmakes
  rw [insertLine_eq line hd₁]
  exact ⟨h₁.trans h₂, ht, htmem⟩

theorem Free.leaves_insertLines (lines : List String) :
    d.Leaves (lines.foldl (fun (cursor, d) line => d.insertLine cursor line) (n, d)).2 P := by
  induction lines generalizing d n with
  | nil => exact .refl wf
  | cons line lines ih =>
    have hline := hn.leaves_insertLine wf hP hmem line
    rw [foldl_insertLine_cons]
    generalize d.insertLine n line = result at hline ⊢
    obtain ⟨cursor, d'⟩ := result
    obtain ⟨h₁, hcursor, hmem₁⟩ := hline
    exact h₁.trans (ih h₁.grows.wellFormed (fun m hm => h₁.grows.mem_ids m (hP m hm)) hcursor hmem₁)

/-- Writing a value into a text. -/
theorem Free.leaves_writeValue (value : String) : d.Leaves (d.writeValue n value) P := by
  have herase : d.Leaves (d.eraseAttribute n Word.markAttribute) P := wf.leaves_relabel hn.not_mem _
  have hP₁ := fun m hm => herase.grows.mem_ids m (hP m hm)
  have hwrite := fun content => (hn.of_leaves wf herase).leaves_writeText herase.grows.wellFormed hP₁
    (herase.grows.mem_ids n hmem) content
  unfold Document.writeValue
  dsimp only
  split
  · exact herase.trans (hwrite "")
  · next first others _ =>
    have h := herase.trans (hwrite first)
    exact h.trans ((hn.of_leaves wf h).leaves_insertLines h.grows.wellFormed
      (fun m hm => h.grows.mem_ids m (hP m hm)) (h.grows.mem_ids n hmem) others)

end Write

/-- The texts in a scope are apart from what is beyond it, unless the scope is such a text and has a
parent. -/
theorem free_of_mem_placeholders (wf : d.WellFormed) (hroot : root ∈ d.ids)
    (htext : d.isNamed root Word.text = false ∨ d.parent? root = none)
    (hn : n ∈ d.placeholders root) : d.Free (d.Beyond root) n := by
  obtain ⟨hin, hname⟩ := wf.mem_textElements_iff.mp (List.mem_filter.mp hn).1
  refine ⟨⟨fun h => h.2 hin, fun m hm hmem => ?_⟩, fun m hmem hm => ?_⟩
  · have hparent := wf.parent?_eq_some_iff.mpr hmem
    by_cases hne : n = root
    · subst hne
      rcases htext with h | h
      · rw [hname] at h
        cases h
      · rw [h] at hparent
        cases hparent
    · obtain ⟨A, X, hid, hA⟩ := wf.exists_treeAt hroot
      rw [hA, ids_tree, List.mem_cons, hid, or_iff_right hne] at hin
      obtain ⟨q, hq, hnq⟩ := wf.exists_parent hA hin
      obtain rfl : q = m := Option.some.inj (hnq.symm.trans hparent)
      exact hm.2 hq
  · exact hm.2 (wf.mem_of_parent?_mem (wf.parent?_eq_some_iff.mpr hmem) hin)

end Xml.Document

theorem Rewrites.leaves {root : NodeId} {d d' : Document} {ns : List NodeId} (h : Rewrites root d ns d')
    (wf : d.WellFormed) (hroot : root ∈ d.ids)
    (htext : d.isNamed root Word.text = false ∨ d.parent? root = none) :
    d.Leaves d' (d.Beyond root) := by
  induction h with
  | refl => exact .refl wf
  | write value _ hn ih =>
    have hmem := wf.mem_ids_of_mem_treeAt (wf.mem_textElements_iff.mp (List.mem_filter.mp hn).1).1
    exact ih.trans (((Document.free_of_mem_placeholders wf hroot htext hn).of_leaves wf ih).leaves_writeValue
      ih.grows.wellFormed (fun m hm => ih.grows.mem_ids m hm.1) (ih.grows.mem_ids _ hmem) value)

/-- A driver that only writes values into placeholders changes nothing beyond the node it is given. -/
theorem Binding.Driver.RewritesPlaceholders.staysBelow {σ : Type} {driver : Driver σ}
    (h : driver.RewritesPlaceholders) : driver.StaysBelow := by
  intro root w wf hroot htext
  have hruns := h root w
  rw [Runs] at hruns
  cases hrun : driver.substitute root w with
  | ok a w' =>
    rw [hrun] at hruns
    obtain ⟨ns, hns⟩ := hruns
    exact hns.leaves wf hroot htext
  | error e w' =>
    rw [hrun] at hruns
    obtain ⟨ns, hns⟩ := hruns
    exact hns.leaves wf hroot htext

end WordTemplate
