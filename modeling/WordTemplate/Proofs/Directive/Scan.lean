import WordTemplate.Proofs.Directive.Outline

/-!
# The directives of a text

`Cuts` says that directives stand one behind another in a text, each at its position.

* `cuts_findAll`: the directives that are found in a text.
* `tokensFrom_cons`: the tokens up to the first of them and behind it.
-/

namespace WordTemplate

open Directive

/-- Whether the directives stand in this order in a text that begins at `position`. -/
inductive Cuts : Nat → List Char → List Directive → Prop where
  | nil (position : Nat) (s : List Char) : Cuts position s []
  | cons {position : Nat} {b after : List Char} {d : Directive} {ds : List Directive} :
      d.position = position + b.length → d.text.toList ≠ [] → d.kind ≠ .content →
      Cuts d.stop after ds → Cuts position (b ++ (d.text.toList ++ after)) (d :: ds)

/-- Text in front of the directives. -/
theorem Cuts.behind {position : Nat} {s : List Char} {ds : List Directive}
    (before : List Char) (h : Cuts (position + before.length) s ds) :
    Cuts position (before ++ s) ds := by
  cases h with
  | nil => exact .nil _ _
  | @cons _ before' after d ds hp ht hk h =>
    rw [← List.append_assoc]
    exact .cons (by rw [hp, List.length_append]; omega) ht hk h

/-- A part of the directives. -/
theorem Cuts.sublist {position : Nat} {s : List Char} {ds ds' : List Directive}
    (h : Cuts position s ds) (hds : ds'.Sublist ds) : Cuts position s ds' := by
  induction h generalizing ds' with
  | nil =>
    rw [List.sublist_nil.mp hds]
    exact .nil _ _
  | @cons position before after d ds hp ht hk h ih =>
    cases hds with
    | cons _ hds =>
      have hlength : d.text.toList.length = d.length := String.length_toList
      have hrest := ih hds
      refine Cuts.behind before (Cuts.behind d.text.toList ?_)
      rw [hlength, ← hp]
      exact hrest
    | cons_cons _ hds => exact .cons hp ht hk (ih hds)

section Body

variable {position : Nat} {body : List Char} {d : Directive}

theorem classify_ne_content (body : List Char) : (classify body).1 ≠ .content := by
  unfold classify
  repeat' split
  all_goals simp

/-- A directive is written as its body between braces. -/
theorem ofBody?_eq_some (h : ofBody? position body = some d) :
    d.position = position ∧ d.text.toList = enclose body ∧ d.kind ≠ .content := by
  have hkind := classify_ne_content (Text.trim body)
  simp only [ofBody?] at h
  split at h
  · simp at h
  · split at h
    all_goals
      cases h
      exact ⟨rfl, String.toList_ofList .., hkind⟩

theorem enclose_ne_nil (body : List Char) : enclose body ≠ [] := by
  simp [enclose, openingBraces]

end Body

/-- The directives among the occurrences of double braces. -/
theorem cuts_occurrences (position : Nat) (s : List Char) :
    Cuts position s ((occurrences position s).filterMap fun (position, body) => ofBody? position body) := by
  induction position, s using occurrences.induct with
  | case1 position =>
    rw [occurrences]
    exact .nil _ _
  | case2 position c cs body rest h ih =>
    rw [occurrences]
    split
    · next body' rest' h' =>
      rw [h] at h'
      cases h'
      rw [eq_append_of_occurrence? h, List.filterMap_cons]
      split
      · exact Cuts.behind _ ih
      · next d hd =>
        obtain ⟨hp, ht, hk⟩ := ofBody?_eq_some hd
        have hstop : d.stop = position + (enclose body).length := by
          rw [← ht, Directive.stop, Directive.length, hp, String.length_toList]
        rw [← hstop] at ih ⊢
        rw [← ht]
        exact Cuts.cons (b := []) (by simpa using hp) (by rw [ht]; exact enclose_ne_nil body) hk ih
    · next h' => rw [h] at h'; cases h'
  | case3 position c cs h ih =>
    rw [occurrences]
    split
    · next h' => rw [h] at h'; cases h'
    · exact Cuts.behind [c] ih

theorem outsideIgnored_sublist (ignoring : Bool) (ds : List Directive) :
    (outsideIgnored ignoring ds).Sublist ds := by
  induction ds generalizing ignoring with
  | nil => exact .slnil
  | cons d ds ih =>
    unfold outsideIgnored
    split
    · split
      · exact (ih false).cons_cons d
      · exact (ih true).cons d
    · exact (ih _).cons_cons d

/-- The directives that are found in a text stand in it at their positions. -/
theorem cuts_findAll (s : String) : Cuts 0 s.toList (findAll s) :=
  (cuts_occurrences 0 s.toList).sublist (outsideIgnored_sublist false _)

/-- The tokens of a text that begins with characters and a directive. -/
theorem tokensFrom_cons {position : Nat} {before after : List Char} {d : Directive}
    {ds : List Directive} (h : d.position = position + before.length) :
    tokensFrom position (before ++ (d.text.toList ++ after)) (d :: ds) =
      before.map .char ++ .directive d :: tokensFrom d.stop after ds := by
  have hlength : d.stop - position = (before ++ d.text.toList).length := by
    simp only [Directive.stop, Directive.length, List.length_append, String.length_toList]
    omega
  have hbefore : d.position - position = before.length := by omega
  rw [tokensFrom, hbefore, hlength, ← List.append_assoc, List.drop_left, List.append_assoc,
    List.take_left]

end WordTemplate
