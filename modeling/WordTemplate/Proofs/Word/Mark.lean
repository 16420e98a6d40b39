import Std.Data.String.ToNat
import WordTemplate.Block.Placement
import WordTemplate.Proofs.Word.Sound

/-!
# Marks and insertion points on labels

Setting an attribute changes no other one, so an element that gets an insertion point at the end of
a block shows what it showed before, and one that gets the start of a block is an anchor.

* `id_startPoint_inj`: blocks of different numbers have different insertion points.
-/

namespace WordTemplate

open Xml Forest

namespace Xml

theorem lookup_putAttribute_self (key value : String) (attributes : List Attribute) :
    (putAttribute key value attributes).lookup key = some value := by
  induction attributes with
  | nil => simp [putAttribute]
  | cons a rest ih =>
    obtain ⟨k, v⟩ := a
    unfold putAttribute
    split
    · next h => simp [h]
    · next h =>
      have : (key == k) = false := by simpa using Ne.symm h
      rw [List.lookup_cons, this]
      exact ih

theorem lookup_putAttribute_ne {key other : String} (h : other ≠ key) (value : String)
    (attributes : List Attribute) :
    (putAttribute key value attributes).lookup other = attributes.lookup other := by
  have hb : (other == key) = false := by simpa using h
  induction attributes with
  | nil => simp [putAttribute, List.lookup_cons, hb]
  | cons a rest ih =>
    obtain ⟨k, v⟩ := a
    unfold putAttribute
    split
    · next hk => simp [List.lookup_cons, hk, hb]
    · simp only [List.lookup_cons, ih]

theorem filter_putAttribute_ne {key other : String} (h : other ≠ key) (value : String)
    (attributes : List Attribute) :
    (putAttribute key value attributes).filter (·.1 == other) =
      attributes.filter (·.1 == other) := by
  have hb : (key == other) = false := by simpa using Ne.symm h
  induction attributes with
  | nil => simp [putAttribute, hb]
  | cons a rest ih =>
    obtain ⟨k, v⟩ := a
    unfold putAttribute
    split
    · next hk => simp [hk, hb]
    · simp only [List.filter_cons, ih]

namespace Label

variable {l : Label} {key value : String}

@[simp] theorem name?_setAttribute : (l.setAttribute key value).name? = l.name? := by
  cases l <;> rfl

@[simp] theorem isNamed_setAttribute (name : String) :
    (l.setAttribute key value).isNamed name = l.isNamed name := by
  simp [isNamed]

@[simp] theorem isProperty_setAttribute :
    (l.setAttribute key value).isProperty = l.isProperty := by
  cases l <;> rfl

@[simp] theorem isElement_setAttribute : (l.setAttribute key value).isElement = l.isElement := by
  cases l <;> rfl

@[simp] theorem isMute_setAttribute (mute : List String) :
    (l.setAttribute key value).isMute mute = l.isMute mute := by
  simp [isMute]

theorem attribute?_setAttribute_self (hl : l.isElement = true) :
    (l.setAttribute key value).attribute? key = some value := by
  cases l with
  | element tag => exact lookup_putAttribute_self key value _
  | text content => simp [isElement] at hl

theorem attribute?_setAttribute_ne {other : String} (h : other ≠ key) :
    (l.setAttribute key value).attribute? other = l.attribute? other := by
  cases l with
  | element tag => exact lookup_putAttribute_ne h value _
  | text content => rfl

theorem marks_setAttribute_ne (h : Word.markAttribute ≠ key) : (l.setAttribute key value).marks = l.marks := by
  cases l with
  | element tag => rw [setAttribute, marks, filter_putAttribute_ne h, marks]
  | text content => rfl

@[simp] theorem marks_setAttribute_insertion :
    (l.setAttribute Word.insertionAttribute value).marks = l.marks :=
  marks_setAttribute_ne (by decide)

end Label

end Xml

/-! ## Names of insertion points -/

open Block

theorem isPrefixOf_endMark_startPoint (kind : Directive.Kind) (number : Nat) :
    Word.endMark.toList.isPrefixOf (startPoint kind number).id.toList = false := by
  simp only [startPoint, InsertionPoint.id, Bool.false_eq_true, if_false, String.toList_append]
  cases kind <;> rfl

theorem isPrefixOf_endMark_endPoint (kind : Directive.Kind) (number : Nat) :
    Word.endMark.toList.isPrefixOf (endPoint kind number).id.toList = true := by
  simp only [endPoint, InsertionPoint.id, if_true, String.toList_append, List.append_assoc]
  exact List.isPrefixOf_iff_prefix.mpr (List.prefix_append _ _)

theorem isAnchor_startPoint {l : Label} (hl : l.isElement = true) (kind : Directive.Kind)
    (number : Nat) :
    (l.setAttribute Word.insertionAttribute (startPoint kind number).id).isAnchor = true := by
  rw [Label.isAnchor, Label.attribute?_setAttribute_self hl]
  simp [isPrefixOf_endMark_startPoint]

theorem isAnchor_endPoint (l : Label) (kind : Directive.Kind) (number : Nat) :
    (l.setAttribute Word.insertionAttribute (endPoint kind number).id).isAnchor = false := by
  cases l with
  | text content => rfl
  | element tag =>
    rw [Label.isAnchor, Label.attribute?_setAttribute_self rfl]
    simp [isPrefixOf_endMark_endPoint]

theorem not_mem_name (kind : Directive.Kind) : '_' ∉ kind.name.toList := by
  cases kind <;> decide

theorem id_startPoint_inj {kind kind' : Directive.Kind} {number number' : Nat}
    (h : (startPoint kind number).id = (startPoint kind' number').id) : number = number' := by
  have h := congrArg String.toList h
  simp only [startPoint, InsertionPoint.id, Bool.false_eq_true, if_false, String.toList_append,
    List.append_assoc] at h
  have key : ∀ {u u' w w' : List Char}, '_' ∉ u → '_' ∉ u' → u ++ ('_' :: w) = u' ++ ('_' :: w') →
      w = w' := by
    intro u u' w w' hu hu' h
    induction u generalizing u' with
    | nil =>
      cases u' with
      | nil => simpa using h
      | cons c u' =>
        obtain ⟨rfl, -⟩ := List.cons.inj h
        simp at hu'
    | cons c u ih =>
      cases u' with
      | nil =>
        obtain ⟨rfl, -⟩ := List.cons.inj h
        simp at hu
      | cons c' u' =>
        simp only [List.cons_append, List.cons.injEq, List.mem_cons, not_or] at h hu hu'
        exact ih hu.2 hu'.2 h.2
  have := key (not_mem_name kind) (not_mem_name kind') h
  have := String.toList_injective this
  simpa [Nat.toString_eq_repr, Nat.repr_inj] using this

end WordTemplate
