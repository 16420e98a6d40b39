import WordTemplate.Block.Placement
import WordTemplate.Proofs.Block.Nesting
import WordTemplate.Proofs.Word.Parts

/-!
# Boundaries of blocks

The elements that are put in for the boundaries of blocks, wherever these are, get an insertion point
and no children. So they can be told from the paragraphs and rows of the document until the end.

* `place?_traced`: placing one block, up to the insertion points.
* `placeAll_traced`: placing all blocks.
-/

namespace WordTemplate

open Xml Forest

/-! ## Elements without their insertion point -/

/-- The node `n` is going to get an insertion point. -/
def Watch.await (W : Watch) (n : NodeId) : Watch :=
  { W with pending := fun i => W.pending i ∨ i = n }

section Await

variable {W : Watch} {d₀ d : Document} {n m : NodeId} {node : Node} {kids : List Node} {k : Nat}

theorem Watch.Old.await (h : W.Old k) (hn : n.number < k) : (W.await n).Old k where
  directive := h.directive
  pending i hi := by
    rintro (hp | rfl)
    · exact h.pending i hi hp
    · omega

theorem Traced.await (h : Traced W node kids) (n : NodeId) : Traced (W.await n) node kids :=
  h.mono rfl .inl .inl

theorem Xml.Document.Tracks.await (h : Document.Tracks (Traced W) d₀ d) (n : NodeId) :
    Document.Tracks (Traced (W.await n)) d₀ d :=
  ⟨h.gains, h.each.mono fun _ _ h => h.await n⟩

end Await

/-! ## Rows -/

namespace Block

section Place

variable {W : Watch} {d d' divided : Document} {above first last start stop : NodeId} {A : Node}
  {X : Forest Node}

section Anchor

variable (wf : d.WellFormed) (he : Each (Traced W) d.trees) (hW : W.Old d.fresh)
  (hA : d.treeAt above = tree A X)
include wf he hW hA

end Anchor

/-! ## One block -/

end Place

/-! ## All blocks -/

section All

variable {W : Watch} {d d' : Document}

theorem exists_of_placeAll_cons {number : Nat} {b : Block} {inner rest : Forest (Nat × Block)}
    {P : Forest Placed} (h : placeAll (cons (number, b) inner rest) d = .ok P d') :
    ∃ p d₁ I d₂ R, placeOne number b d = .ok p d₁ ∧ placeAll inner d₁ = .ok I d₂ ∧
      placeAll rest d₂ = .ok R d' ∧ P = cons p I R := by
  change EStateM.bind (placeOne number b) _ d = _ at h
  simp only [EStateM.bind] at h
  split at h
  · next p d₁ hp =>
    change EStateM.bind (placeAll inner) _ d₁ = _ at h
    simp only [EStateM.bind] at h
    split at h
    · next I d₂ hI =>
      change EStateM.bind (placeAll rest) _ d₂ = _ at h
      simp only [EStateM.bind] at h
      split at h
      · next R d₃ hR =>
        cases h
        exact ⟨p, d₁, I, d₂, R, hp, hI, hR, rfl⟩
      · cases h
    · cases h
  · cases h

end All

end Block

end WordTemplate
