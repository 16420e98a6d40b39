import WordTemplate.Proofs.Block.Bounds
import WordTemplate.Proofs.Directive.Outline

/-!
# Outlines of documents

`Layout` relates an outline to the blocks that the directives make and to the landmarks of a
document in which every directive has a text element of its own. `Anchored` relates it to the blocks
after they have been placed, and to the landmarks among which the anchors then are.
-/

namespace WordTemplate

open Xml Forest

/-- Whether a landmark is the text element of a directive. -/
structure Landmark.Shows (x : Landmark) (m : Marker) : Prop where
  node_eq : m.node = x.node
  sign_eq : x.sign = .text [m.directive.kind.name] m.directive.text

/-! ## Outlines of documents with blocks that are not yet placed -/

/-- What a forest of blocks is: blocks side by side, or the passages of a block from one of its
markers on, the first of which is of the given kind. -/
inductive Role where
  | level
  | passages (kind : Directive.Kind) (start stop : Marker)

/-- The outline of blocks and of the landmarks that they are read from. The ends of a block do not
belong to its passages. -/
inductive Layout : Role → Forest Part → Forest Block → List Landmark → Prop where
  | nil : Layout .level nil nil []
  | text {x : Landmark} {content : String} {P : Forest Part} {B : Forest Block}
      {ls : List Landmark} : x.sign = .text [] content → Layout .level P B ls →
      Layout .level (chars content.toList P) B (x :: ls)
  | value {x : Landmark} {m : Marker} {P : Forest Part} {B : Forest Block} {ls : List Landmark} :
      x.Shows m → m.directive.kind = .placeholder → Layout .level P B ls →
      Layout .level (cons (.value m.directive) nil P) B (x :: ls)
  | keyword {x : Landmark} {m : Marker} {P : Forest Part} {B : Forest Block}
      {ls : List Landmark} : x.Shows m → m.directive.kind = .inlineKeyword →
      Layout .level P B ls →
      Layout .level (cons (.keyword m.directive) nil P) (cons ⟨.inlineKeyword, m, m⟩ nil B) (x :: ls)
  | block {s e : Landmark} {start stop : Marker} {PS P : Forest Part} {BS B : Forest Block}
      {mid ls : List Landmark} : s.Shows start → e.Shows stop →
      start.directive.kind.isBlockStart = true → start.directive.kind ≠ .inlineKeyword →
      stop.directive.kind ≠ .placeholder → Layout (.passages .content start stop) PS BS mid →
      Layout .level P B ls →
      Layout .level (cons (.block start.directive) PS P)
        (cons ⟨start.directive.kind, start, stop⟩ BS B) (s :: (mid ++ e :: ls))
  | last {kind : Directive.Kind} {start stop : Marker} {P : Forest Part} {B : Forest Block}
      {ls : List Landmark} : Layout .level P B ls →
      Layout (.passages kind start stop) (tree (.passage kind) P) (tree ⟨kind, start, stop⟩ B) ls
  | more {kind : Directive.Kind} {x : Landmark} {start next stop : Marker} {P PS : Forest Part}
      {B BS : Forest Block} {ls rest : List Landmark} : Layout .level P B ls →
      x.Shows next → next.directive.kind ≠ .placeholder →
      Layout (.passages next.directive.kind next stop) PS BS rest →
      Layout (.passages kind start stop) (cons (.passage kind) P PS)
        (cons ⟨kind, start, next⟩ B BS) (ls ++ x :: rest)

section Layout

variable {role : Role} {P : Forest Part} {B : Forest Block} {ls : List Landmark}

theorem Landmark.Shows.isAnchor_eq {x : Landmark} {m : Marker} (h : x.Shows m) :
    x.sign.isAnchor = false := by
  rw [h.sign_eq]
  rfl

/-- There are no anchors before blocks are placed. -/
theorem Layout.isAnchor_eq (h : Layout role P B ls) : ∀ x ∈ ls, x.sign.isAnchor = false := by
  induction h with
  | nil => simp
  | text hx _ ih =>
    rintro z (_ | ⟨_, hz⟩)
    · rw [hx]; rfl
    · exact ih z hz
  | value hx _ _ ih | keyword hx _ _ ih =>
    rintro z (_ | ⟨_, hz⟩)
    · exact hx.isAnchor_eq
    · exact ih z hz
  | block hs he _ _ _ _ _ ihm ih =>
    intro z hz
    simp only [List.mem_cons, List.mem_append] at hz
    rcases hz with rfl | hz | rfl | hz
    · exact hs.isAnchor_eq
    · exact ihm z hz
    · exact he.isAnchor_eq
    · exact ih z hz
  | last _ ih => exact ih
  | more _ hx _ _ ih ihr =>
    intro z hz
    simp only [List.mem_cons, List.mem_append] at hz
    rcases hz with hz | rfl | hz
    · exact ih z hz
    · exact hx.isAnchor_eq
    · exact ihr z hz

end Layout

/-! ## Regions of blocks -/

/-- Where a node is: below the first of some nodes, which is below the others. -/
abbrev Region := Crumb × List Crumb

namespace Region

def relocate (g : NodeId → NodeId) (r : Region) : Region :=
  (r.1.relocate g, r.2.map (Crumb.relocate g))

end Region

theorem InRegion.relocate {k : Crumb} {c : List Crumb} {x : Landmark} (h : InRegion k c x)
    (g : NodeId → NodeId) :
    InRegion (k.relocate g) (c.map (Crumb.relocate g)) (x.relocate g) := by
  obtain ⟨inner, hx, hplain⟩ := h
  refine ⟨inner.map (Crumb.relocate g), ?_, ?_⟩
  · rw [Landmark.relocate, hx, List.map_append, List.map_cons]
  · intro j hj
    rcases List.mem_cons.mp hj with rfl | hj
    · exact hplain k (by simp)
    · obtain ⟨i, hi, rfl⟩ := List.mem_map.mp hj
      exact hplain i (by simp [hi])

theorem Landmark.Shows.relocate {g : NodeId → NodeId} {x : Landmark} {m : Marker} (h : x.Shows m) :
    (x.relocate g).Shows m :=
  ⟨h.node_eq, h.sign_eq⟩

/-- Whether the directives of every block are in one region, which `region` gives for their text
elements. -/
structure Regional (region : NodeId → Region) (B : Forest Block) (ls : List Landmark) : Prop where
  start_eq_stop : ∀ b ∈ B.toList, region b.start.node = region b.stop.node
  inRegion : ∀ b ∈ B.toList, ∀ x ∈ ls, x.node = b.start.node ∨ x.node = b.stop.node →
    InRegion (region x.node).1 (region x.node).2 x

theorem Regional.mono {region : NodeId → Region} {B B' : Forest Block} {ls ls' : List Landmark}
    (h : Regional region B ls) (hB : ∀ b ∈ B'.toList, b ∈ B.toList) (hls : ∀ x ∈ ls', x ∈ ls) :
    Regional region B' ls' :=
  ⟨fun b hb => h.start_eq_stop b (hB b hb), fun b hb x hx => h.inRegion b (hB b hb) x (hls x hx)⟩

/-! ## Outlines of documents with placed blocks -/

/-- The outline of placed blocks and of the landmarks with their anchors. These are blocks side by
side, or the passages of a block before the landmark at its end. -/
inductive Anchored :
    Option Landmark → Forest Part → Forest Block.Placed → List Landmark → Prop where
  | nil : Anchored none nil nil []
  | text {x : Landmark} {content : String} {P : Forest Part} {B : Forest Block.Placed}
      {ls : List Landmark} : x.sign = .text [] content → Anchored none P B ls →
      Anchored none (chars content.toList P) B (x :: ls)
  | value {x : Landmark} {m : Marker} {P : Forest Part} {B : Forest Block.Placed}
      {ls : List Landmark} : x.Shows m → m.directive.kind = .placeholder → Anchored none P B ls →
      Anchored none (cons (.value m.directive) nil P) B (x :: ls)
  | keyword {x α : Landmark} {m : Marker} {n : Nat} {P : Forest Part} {B : Forest Block.Placed}
      {ls : List Landmark} : x.Shows m → m.directive.kind = .inlineKeyword →
      α.sign = .anchor (Block.startPoint .inlineKeyword n).id → α.path = x.path → α.path ≠ [] →
      Anchored none P B ls →
      Anchored none (cons (.keyword m.directive) nil P)
        (cons ⟨n, ⟨.inlineKeyword, m, m⟩, α.node, x.node⟩ nil B) (α :: x :: ls)
  | block {s e α : Landmark} {start stop : Marker} {n : Nat} {last : NodeId}
      {PS P : Forest Part} {BS B : Forest Block.Placed} {mid ls : List Landmark} :
      s.Shows start → e.Shows stop → start.directive.kind.isBlockStart = true →
      start.directive.kind ≠ .inlineKeyword → stop.directive.kind ≠ .placeholder →
      α.sign = .anchor (Block.startPoint start.directive.kind n).id → Bounded α mid e last →
      Anchored (some e) PS BS mid → Anchored none P B ls →
      Anchored none (cons (.block start.directive) PS P)
        (cons ⟨n, ⟨start.directive.kind, start, stop⟩, α.node, last⟩ BS B)
        (s :: α :: (mid ++ e :: ls))
  | last {kind : Directive.Kind} {e α : Landmark} {start stop : Marker} {n : Nat} {last : NodeId}
      {P : Forest Part} {B : Forest Block.Placed} {ls : List Landmark} :
      α.sign = .anchor (Block.startPoint kind n).id → Bounded α ls e last →
      Anchored none P B ls →
      Anchored (some e) (tree (.passage kind) P)
        (tree ⟨n, ⟨kind, start, stop⟩, α.node, last⟩ B) (α :: ls)
  | more {kind : Directive.Kind} {e x α : Landmark} {start next : Marker} {n : Nat}
      {last : NodeId} {P PS : Forest Part} {B BS : Forest Block.Placed} {ls rest : List Landmark} :
      α.sign = .anchor (Block.startPoint kind n).id → Bounded α ls x last → x.Shows next →
      next.directive.kind ≠ .placeholder → Anchored none P B ls → Anchored (some e) PS BS rest →
      Anchored (some e) (cons (.passage kind) P PS)
        (cons ⟨n, ⟨kind, start, next⟩, α.node, last⟩ B BS) (α :: (ls ++ x :: rest))

end WordTemplate
