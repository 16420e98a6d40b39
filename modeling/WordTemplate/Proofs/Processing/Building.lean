import WordTemplate.Proofs.Processing.TableFree

/-!
# Building documents

Whether a document that is made of one tree of labels can be processed is read off the labels:
`processable_ofTree`. So it can be decided for a document that is written down.
-/

namespace WordTemplate

open Xml Forest

/-! ## Deciding whether a document can be processed -/

instance decidableTextsOutside (closed : Label → Bool) :
    (f : Forest Label) → Decidable (TextsOutside closed f)
  | .nil => inferInstanceAs (Decidable True)
  | .cons l cs rest =>
    have := decidableTextsOutside closed cs
    have := decidableTextsOutside closed rest
    inferInstanceAs (Decidable ((closed l = true → ∀ m ∈ cs.toList, m.isNamed Word.text = false) ∧
      TextsOutside closed cs ∧ TextsOutside closed rest))

instance decidablePristine (mute : List String) (f : Forest Label) : Decidable (Pristine mute f) :=
  decidable_of_iff
    ((∀ l ∈ f.toList, l.attribute? Word.markAttribute = none) ∧
      (∀ l ∈ f.toList, l.attribute? Word.insertionAttribute = none) ∧
      TextsOutside (fun l => l.isNamed Word.text || l.isMute mute) f)
    ⟨fun h => ⟨h.1, h.2.1, h.2.2⟩, fun h => ⟨h.mark_eq, h.insertion_eq, h.texts⟩⟩

/-- Whether a document of one tree can be processed from its root is read off the labels. -/
theorem processable_ofTree {settings : Settings} {tag : Element} {children : Forest Label}
    (htext : (Label.element tag).isNamed Word.text = false)
    (hrow : (Label.element tag).isNamed Word.row = false)
    (h : Pristine settings.mute (tree (.element tag) children)) :
    Processable settings (.ofTree tag children) (Document.ofTree tag children).root where
  wellFormed := Document.wellFormed_ofTree tag children
  exists_label := by
    refine ⟨.element tag, ?_, htext, hrow⟩
    rw [Document.label?, Document.treeAt_root_ofTree]
    rfl
  pristine := by rwa [Document.labelsAt_root_ofTree]

/-! ## Texts in paragraphs and rows -/

namespace Word

/-- A text element. -/
def textOf (s : String) : Forest Label :=
  tree (.element ⟨text, []⟩) (tree (.text s) .nil)

/-- A run with one text. -/
def runOf (s : String) : Forest Label :=
  tree (.element ⟨run, []⟩) (textOf s)

/-- A paragraph with one text. -/
def paragraphOf (s : String) : Forest Label :=
  tree (.element ⟨paragraph, []⟩) (runOf s)

/-- A cell with one text. -/
def cellOf (s : String) : Forest Label :=
  tree (.element ⟨cell, []⟩) (paragraphOf s)

/-- A row of cells with one text each. -/
def rowOf (cells : List String) : Forest Label :=
  tree (.element ⟨row, []⟩) (cells.foldr (fun s rest => cellOf s ++ rest) .nil)

/-- A table of such rows. -/
def tableOf (rows : List (List String)) : Forest Label :=
  tree (.element ⟨table, []⟩) (rows.foldr (fun cells rest => rowOf cells ++ rest) .nil)

/-- A document with this in its body. -/
def documentOf (children : Forest Label) : Document :=
  .ofTree ⟨body, []⟩ children

end Word

/-- Whether the body of a document can be processed is read off what is in it. -/
theorem processable_documentOf {settings : Settings} {children : Forest Label}
    (h : Pristine settings.mute (tree (.element ⟨Word.body, []⟩) children)) :
    Processable settings (Word.documentOf children) (Word.documentOf children).root :=
  processable_ofTree (by decide) (by decide) h

instance decidableTableFree (f : Forest Label) : Decidable (TableFree f) :=
  inferInstanceAs (Decidable (∀ l ∈ f.toList, l.isNamed Word.table = false ∧ l.isNamed Word.row = false))

theorem labelsAt_root_documentOf (children : Forest Label) :
    (Word.documentOf children).labelsAt (Word.documentOf children).root =
      tree (.element ⟨Word.body, []⟩) children :=
  Document.labelsAt_root_ofTree ..

/-! ## Outcomes -/

/-- How a step fails, if it does. -/
def errorOf? {ε σ α : Type} : EStateM.Result ε σ α → Option ε
  | .ok _ _ => none
  | .error e _ => some e

theorem exists_of_errorOf?_eq_none {ε σ α : Type} {r : EStateM.Result ε σ α} (h : errorOf? r = none) :
    ∃ a w, r = .ok a w := by
  cases r with
  | ok a w => exact ⟨a, w, rfl⟩
  | error e w => cases h

/-- Whether the blocks can be read, and every anchor is in place then. -/
def anchorsFound (settings : Settings) (root : NodeId) (d : Document) : Bool :=
  match readBlocks (σ := Unit) { settings with validate := true } root ⟨d, ()⟩ with
  | .ok T w => T.roots.all fun t => (t.anchor.resolve? w.document root).isSome
  | .error _ _ => false

theorem exists_stages_of_anchorsFound (settings : Settings) (root : NodeId) (d : Document)
    (h : anchorsFound settings root d = true) :
    ∃ B B' d₂ T d₃, Stages settings root d B B' d₂ T d₃ ∧ AnchorsInPlace d₃ root T := by
  rw [anchorsFound] at h
  split at h
  · next T w hread =>
    obtain ⟨B, B', d₂, d₃, hstages, rfl, hvalid⟩ := exists_stages hread
    exact ⟨B, B', d₂, T, d₃, ⟨hstages.nest_eq, hstages.placeAll_eq, hstages.extractAll_eq⟩,
      List.all_eq_true.mp h, hvalid rfl⟩
  · cases h

end WordTemplate
