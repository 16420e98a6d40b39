/-!
# Ordered forests

A forest is a list of ordered trees. It is given by its first tree (a value and the forest below
it) and the trees after that one, so that recursion on forests is plain structural recursion.

`toList` lists the values in document order: a value, then those below it, then those of the trees
after it. A node is addressed by a test on values; where several nodes pass, the first in document
order is meant.
-/

namespace WordTemplate

/-- A list of ordered trees with a value at every node. -/
inductive Forest (α : Type u) where
  | nil
  | cons (value : α) (children rest : Forest α)
  deriving DecidableEq, Repr, Inhabited

namespace Forest

variable {α : Type u} {β : Type v}

/-- The forest of one tree. -/
def tree (value : α) (children : Forest α) : Forest α :=
  cons value children nil

/-- The trees of `f`, then those of `g`. -/
def append : Forest α → Forest α → Forest α
  | nil, g => g
  | cons a cs rest, g => cons a cs (rest.append g)

instance : Append (Forest α) := ⟨append⟩

/-- The values in document order. -/
def toList : Forest α → List α
  | nil => []
  | cons a cs rest => a :: (cs.toList ++ rest.toList)

/-- The values at the top, without those below. -/
def roots : Forest α → List α
  | nil => []
  | cons a _ rest => a :: rest.roots

/-- The forest below the first root. -/
def firstChildren : Forest α → Forest α
  | nil => nil
  | cons _ cs _ => cs

/-- The first root alone. -/
def firstRoot : Forest α → Forest α
  | nil => nil
  | cons a _ _ => tree a nil

/-- The number of nodes. -/
def size : Forest α → Nat
  | nil => 0
  | cons _ cs rest => 1 + cs.size + rest.size

def map (f : α → β) : Forest α → Forest β
  | nil => nil
  | cons a cs rest => cons (f a) (cs.map f) (rest.map f)

/-- The trees whose root satisfies `keep`, whole. -/
def filterRoots (keep : α → Bool) : Forest α → Forest α
  | nil => nil
  | cons a cs rest => if keep a then cons a cs (rest.filterRoots keep) else rest.filterRoots keep

/-- The forest of the given trees, in this order. -/
def ofTrees : List (α × Forest α) → Forest α
  | [] => nil
  | (a, cs) :: ts => cons a cs (ofTrees ts)

/-- Pairs every value with its position in document order, counted from `i`. -/
def number (i : Nat) : Forest α → Forest (Nat × α)
  | nil => nil
  | cons a cs rest => cons (i, a) (cs.number (i + 1)) (rest.number (i + 1 + cs.size))

/-! ## Addressing nodes -/

/-- Whether some value, at any depth, satisfies `p`. -/
def any (p : α → Bool) : Forest α → Bool
  | nil => false
  | cons a cs rest => p a || cs.any p || rest.any p

/-- The tree at the first node that satisfies `p`; the empty forest if there is none. -/
def treeAt (p : α → Bool) : Forest α → Forest α
  | nil => nil
  | cons a cs rest =>
    if p a then tree a cs
    else match cs.treeAt p with
      | nil => rest.treeAt p
      | found => found

/-- The values above the first node that satisfies `p`, nearest first. -/
def above? (p : α → Bool) : Forest α → Option (List α)
  | nil => none
  | cons a cs rest =>
    if p a then some []
    else match cs.above? p with
      | some up => some (up ++ [a])
      | none => rest.above? p

/-- Puts `f a cs` in place of the tree at the first node that satisfies `p`; `a` is its value and
`cs` the forest below it. None if there is no such node. -/
def replace? (p : α → Bool) (f : α → Forest α → Forest α) : Forest α → Option (Forest α)
  | nil => none
  | cons a cs rest =>
    if p a then some (f a cs ++ rest)
    else match cs.replace? p f with
      | some cs => some (cons a cs rest)
      | none => (rest.replace? p f).map (cons a cs)

/-- The same; the forest itself if there is no such node. -/
def replace (p : α → Bool) (f : α → Forest α → Forest α) (g : Forest α) : Forest α :=
  (g.replace? p f).getD g

/-- Puts `f a cs` in place of the first tree at the top whose root `a` satisfies `p`. -/
def replaceRoot (p : α → Bool) (f : α → Forest α → Forest α) : Forest α → Forest α
  | nil => nil
  | cons a cs rest => if p a then f a cs ++ rest else cons a cs (rest.replaceRoot p f)

/-- Leaves out the tree at the first node that satisfies `p`. -/
def prune (p : α → Bool) (f : Forest α) : Forest α :=
  f.replace p fun _ _ => nil

/-! ## Laws -/

@[simp] theorem nil_append (g : Forest α) : nil ++ g = g := rfl

@[simp] theorem cons_append (a : α) (cs rest g : Forest α) :
    cons a cs rest ++ g = cons a cs (rest ++ g) := rfl

@[simp] theorem append_nil (f : Forest α) : f ++ nil = f := by
  induction f with
  | nil => rfl
  | cons a cs rest _ ih => rw [cons_append, ih]

theorem append_assoc (f g h : Forest α) : f ++ g ++ h = f ++ (g ++ h) := by
  induction f with
  | nil => rfl
  | cons a cs rest _ ih => simp only [cons_append, ih]

theorem append_eq_nil_iff {f g : Forest α} : f ++ g = nil ↔ f = nil ∧ g = nil := by
  cases f <;> simp

@[simp] theorem toList_append (f g : Forest α) : (f ++ g).toList = f.toList ++ g.toList := by
  induction f with
  | nil => rfl
  | cons a cs rest _ ih => simp [toList, ih]

@[simp] theorem toList_map (h : α → β) (f : Forest α) : (f.map h).toList = f.toList.map h := by
  induction f with
  | nil => rfl
  | cons a cs rest ihc ihr => simp [map, toList, ihc, ihr]

@[simp] theorem length_toList (f : Forest α) : f.toList.length = f.size := by
  induction f with
  | nil => rfl
  | cons a cs rest ihc ihr =>
    simp only [toList, List.length_cons, List.length_append, ihc, ihr, size]
    omega

/-- Numbering changes no value. -/
@[simp] theorem map_snd_number (i : Nat) (f : Forest α) : (f.number i).map Prod.snd = f := by
  induction f generalizing i with
  | nil => rfl
  | cons a cs rest ihc ihr => simp [number, map, ihc, ihr]

/-- The numbers are consecutive in document order. -/
theorem map_fst_toList_number (i : Nat) (f : Forest α) :
    (f.number i).toList.map Prod.fst = List.range' i f.size := by
  induction f generalizing i with
  | nil => rfl
  | cons a cs rest ihc ihr =>
    simp only [number, toList, List.map_cons, List.map_append, ihc, ihr, size]
    rw [show 1 + cs.size + rest.size = (cs.size + rest.size) + 1 by omega, List.range'_succ,
      ← List.range'_append]
    simp

end Forest

end WordTemplate
