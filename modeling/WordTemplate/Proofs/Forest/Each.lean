import WordTemplate.Proofs.Xml.Position

/-!
# Properties of every node and its children

`Each P` says that `P` holds of every value of a forest together with the values directly below it.
Such a property is kept where trees are replaced if it asks nothing of the children of a node that has
any but that they are admissible: `Lenient`.

* `Each.of_wrap`, `Each.put`: what stands in a spot, and putting something else there.
* `Each.replace`, `Each.prune`: changes at the first node that passes a test.
-/

namespace WordTemplate.Forest

variable {α β : Type} {P Q : α → List α → Prop} {K : α → Prop} {a : α} {cs rest f g : Forest α}
  {up : List (Frame α)}

/-- Whether `P` holds of every value together with the values directly below it. -/
def Each (P : α → List α → Prop) : Forest α → Prop
  | nil => True
  | cons a cs rest => P a cs.roots ∧ Each P cs ∧ Each P rest

instance decidableEach [∀ a bs, Decidable (P a bs)] : (f : Forest α) → Decidable (Each P f)
  | .nil => inferInstanceAs (Decidable True)
  | .cons a cs rest =>
    have := decidableEach cs
    have := decidableEach rest
    inferInstanceAs (Decidable (P a cs.roots ∧ Each P cs ∧ Each P rest))

@[simp] theorem each_nil : Each P nil := trivial

@[simp] theorem each_cons : Each P (cons a cs rest) ↔ P a cs.roots ∧ Each P cs ∧ Each P rest := .rfl

@[simp] theorem each_tree : Each P (tree a cs) ↔ P a cs.roots ∧ Each P cs := by
  simp [tree]

@[simp] theorem each_append : Each P (f ++ g) ↔ Each P f ∧ Each P g := by
  induction f with
  | nil => simp
  | cons a cs rest _ ih => simp only [cons_append, each_cons, ih, and_assoc]

theorem roots_map (h : α → β) (f : Forest α) : (f.map h).roots = f.roots.map h := by
  induction f with
  | nil => rfl
  | cons a cs rest _ ih => simp [map, roots, ih]

/-- One of the trees side by side. -/
theorem exists_of_mem_roots (h : a ∈ f.roots) : ∃ l as r, f = l ++ cons a as r := by
  induction f with
  | nil => cases h
  | cons b bs rest _ ih =>
    rcases List.mem_cons.mp h with rfl | h
    · exact ⟨nil, bs, rest, rfl⟩
    · obtain ⟨l, as, r, rfl⟩ := ih h
      exact ⟨cons b bs l, as, r, rfl⟩

theorem each_map (h : α → β) {P : β → List β → Prop} :
    Each P (f.map h) ↔ Each (fun a bs => P (h a) (bs.map h)) f := by
  induction f with
  | nil => exact .rfl
  | cons a cs rest ihc ihr => simp only [map, each_cons, ihc, ihr, roots_map]

theorem Each.mono_of_mem (h : Each P f) (hPQ : ∀ a ∈ f.toList, ∀ bs, P a bs → Q a bs) : Each Q f := by
  induction f with
  | nil => trivial
  | cons a cs rest ihc ihr =>
    simp only [toList, List.mem_cons, List.mem_append] at hPQ
    exact ⟨hPQ a (.inl rfl) _ h.1, ihc h.2.1 fun b hb => hPQ b (.inr (.inl hb)),
      ihr h.2.2 fun b hb => hPQ b (.inr (.inr hb))⟩

theorem Each.mono (h : Each P f) (hPQ : ∀ a bs, P a bs → Q a bs) : Each Q f :=
  h.mono_of_mem fun a _ => hPQ a

/-- A property of values alone. -/
theorem each_iff_forall {p : α → Prop} : Each (fun a _ => p a) f ↔ ∀ a ∈ f.toList, p a := by
  induction f with
  | nil => simp [toList]
  | cons a cs rest ihc ihr =>
    simp only [each_cons, ihc, ihr, toList, List.mem_cons, List.mem_append]
    grind

/-- What holds of all values holds of every value and the values directly below it. -/
theorem each_of_forall {p : α → Prop} (h : ∀ a ∈ f.toList, p a) :
    Each (fun a bs => p a ∧ ∀ b ∈ bs, p b) f := by
  induction f with
  | nil => trivial
  | cons a cs rest ihc ihr =>
    simp only [toList, List.mem_cons, List.mem_append] at h
    have hcs := fun b hb => h b (.inr (.inl hb))
    exact ⟨⟨h a (.inl rfl), fun b hb => hcs b ((roots_sublist cs).mem hb)⟩, ihc hcs,
      ihr fun b hb => h b (.inr (.inr hb))⟩

theorem Each.exists_of_mem (h : Each P f) (ha : a ∈ f.toList) : ∃ bs, P a bs := by
  induction f with
  | nil => cases ha
  | cons b cs rest ihc ihr =>
    rcases List.mem_cons.mp ha with rfl | ha
    · exact ⟨_, h.1⟩
    · rcases List.mem_append.mp ha with ha | ha
      · exact ihc h.2.1 ha
      · exact ihr h.2.2 ha

/-- Whole trees from the top. -/
theorem Each.filterRoots (h : Each P f) (keep : α → Bool) : Each P (f.filterRoots keep) := by
  induction f with
  | nil => trivial
  | cons a cs rest _ ih =>
    rw [Forest.filterRoots]
    split
    · exact ⟨h.1, h.2.1, ih h.2.2⟩
    · exact ih h.2.2

theorem roots_filterRoots (keep : α → Bool) (f : Forest α) :
    (f.filterRoots keep).roots = f.roots.filter keep := by
  induction f with
  | nil => rfl
  | cons a cs rest _ ih =>
    rw [Forest.filterRoots, roots, List.filter_cons]
    split <;> simp [roots, ih]

theorem replace_tree (p : α → Bool) (put : α → Forest α → Forest α) (a : α) (cs : Forest α) :
    (tree a cs).replace p put = if p a then put a cs else tree a (cs.replace p put) := by
  rw [tree, replace_cons]
  split
  · exact append_nil _
  · split
    · rfl
    · next hcs => rw [replace_eq_self (f := cs) (by simpa using hcs)]; rfl

/-- The values at the top are the same if the one that is replaced keeps its value. -/
theorem roots_replace {p : α → Bool} {put : α → Forest α → Forest α}
    (h : ∀ a cs, ∃ cs' : Forest α, put a cs = tree a cs') (f : Forest α) :
    (f.replace p put).roots = f.roots := by
  induction f with
  | nil => rfl
  | cons a cs rest _ ih =>
    rw [replace_cons]
    split
    · obtain ⟨cs', hcs⟩ := h a cs
      rw [hcs]
      rfl
    · split
      · rfl
      · rw [roots, roots, ih]

theorem Each.treeAt (h : Each P f) (p : α → Bool) : Each P (f.treeAt p) := by
  induction f with
  | nil => trivial
  | cons a cs rest ihc ihr =>
    rw [treeAt_cons]
    split
    · exact ⟨h.1, h.2.1, trivial⟩
    · split
      · exact ihc h.2.1
      · exact ihr h.2.2

theorem Each.firstChildren (h : Each P f) : Each P f.firstChildren := by
  cases f with
  | nil => trivial
  | cons a cs rest => exact h.2.1

/-! ## Spots -/

theorem Each.of_wrap (up : List (Frame α)) (h : Each P (wrap up f)) : Each P f := by
  induction up generalizing f with
  | nil => exact h
  | cons fr up ih => exact (each_append.mp (ih h)).2.2.1

/-- The node directly above a spot, with its children. -/
theorem Each.frame {fr : Frame α} (h : Each P (wrap (fr :: up) f)) : P fr.value f.roots :=
  (each_append.mp (Each.of_wrap up h)).2.1

/-- What is above a spot only notices which values are at the top there. -/
theorem Each.wrap_of_roots (h : Each P (wrap up f)) (hg : Each P g) (hroots : f.roots = g.roots) :
    Each P (wrap up g) := by
  induction up generalizing f g with
  | nil => exact hg
  | cons fr up ih =>
    have hin := each_append.mp (Each.of_wrap up h)
    exact ih h (each_append.mpr ⟨hin.1, hroots ▸ hin.2.1, hg, hin.2.2.2⟩) (by simp [roots])

/-- Putting other trees into a spot below a node that takes them. -/
theorem Each.put_frame {fr : Frame α} (h : Each P (wrap (fr :: up) f)) (hfr : P fr.value g.roots)
    (hg : Each P g) : Each P (wrap (fr :: up) g) := by
  have h : Each P (wrap up (fr.before ++ cons fr.value f fr.after)) := h
  have hin := each_append.mp (Each.of_wrap up h)
  -- Only the node directly above the spot gets other children.
  exact h.wrap_of_roots (each_append.mpr ⟨hin.1, hfr, hg, hin.2.2.2⟩) (by simp [roots])

/-- A property that asks nothing of the children of a node that has any but that they are admissible. -/
structure Lenient (P : α → List α → Prop) (K : α → Prop) : Prop where
  admits : ∀ {a bs}, P a bs → ∀ b ∈ bs, K b
  change : ∀ {a bs bs'}, P a bs → bs ≠ [] → (∀ b ∈ bs', K b) → P a bs'

section Lenient

variable (hP : Lenient P K)
include hP

/-- The trees in a spot, and around it, are admissible. -/
theorem Lenient.admits_of_wrap {fr : Frame α} (h : Each P (wrap (fr :: up) f)) : ∀ b ∈ f.roots, K b :=
  hP.admits h.frame

/-- Putting other trees into a spot below a node. -/
theorem Each.put (h : Each P (wrap up f)) (hf : up ≠ [] → f.roots ≠ []) (hg : Each P g)
    (hK : up ≠ [] → ∀ b ∈ g.roots, K b) : Each P (wrap up g) := by
  cases up with
  | nil => exact hg
  | cons fr up =>
    have hne : fr :: up ≠ [] := by simp
    exact h.put_frame (hP.change h.frame (hf hne) (hK hne)) hg

/-- Putting other trees into a spot between trees. -/
theorem Each.put_between {l r : Forest α} (h : Each P (wrap up (l ++ (f ++ r))))
    (hf : up ≠ [] → (l ++ (f ++ r)).roots ≠ []) (hg : Each P g)
    (hK : up ≠ [] → ∀ b ∈ g.roots, K b) : Each P (wrap up (l ++ (g ++ r))) := by
  have hin := each_append.mp (Each.of_wrap up h)
  refine Each.put hP h hf (each_append.mpr ⟨hin.1, each_append.mpr ⟨hg, (each_append.mp hin.2).2⟩⟩) ?_
  intro hne b hb
  obtain ⟨fr, up, rfl⟩ := List.exists_cons_of_ne_nil hne
  have hadmits := hP.admits_of_wrap h
  simp only [roots_append, List.mem_append] at hb hadmits
  rcases hb with hb | hb | hb
  · exact hadmits b (.inl hb)
  · exact hK hne b hb
  · exact hadmits b (.inr (.inr hb))

end Lenient

/-! ## Changes -/

/-- The spot of the first node that passes a test. -/
theorem exists_replace_spot {p : α → Bool} (h : f.any p = true) :
    ∃ up l a cs r, f = wrap up (l ++ cons a cs r) ∧ p a = true ∧ f.treeAt p = tree a cs ∧
      ∀ put : α → Forest α → Forest α, f.replace p put = wrap up (l ++ (put a cs ++ r)) := by
  obtain ⟨up, l, a, cs, r, rfl, ha, hup, hl⟩ := exists_wrap h
  refine ⟨up, l, a, cs, r, rfl, ha, ?_, fun put => ?_⟩
  · rw [treeAt_wrap _ hup (by simp [any_append, any, ha]), treeAt_append, hl]
    simp [treeAt_cons, ha]
  · have : (l ++ cons a cs r).replace? p put = some (l ++ (put a cs ++ r)) := by
      rw [replace?_append_right _ _ hl]
      simp [replace?, ha]
    simp [Forest.replace, replace?_wrap hup this]

/-- Changing the first node that passes a test. -/
theorem Each.replace {p : α → Bool} {put : α → Forest α → Forest α} (h : Each P f) (hP : Lenient P K)
    (hput : ∀ a ∈ f.toList, ∀ cs, p a = true → f.treeAt p = tree a cs → P a cs.roots → Each P cs →
      Each P (put a cs) ∧ (K a → ∀ b ∈ (put a cs).roots, K b)) :
    Each P (f.replace p put) := by
  cases hany : f.any p with
  | false => rwa [replace_eq_self hany]
  | true =>
    obtain ⟨up, l, a, cs, r, rfl, ha, htree, hreplace⟩ := exists_replace_spot hany
    have hin := each_append.mp (Each.of_wrap up h)
    obtain ⟨hg, hK⟩ := hput a (by simp [toList_wrap, toList]) cs ha htree hin.2.1 hin.2.2.1
    rw [hreplace]
    refine Each.put_between hP (f := tree a cs) h (fun _ => by simp) hg ?_
    intro hne
    obtain ⟨fr, up, rfl⟩ := List.exists_cons_of_ne_nil hne
    exact hK (hP.admits_of_wrap h a (by simp [roots]))

/-- Changing what is below the first node that passes a test. -/
theorem Each.replace_below {p : α → Bool} {put : α → Forest α → Forest α} (h : Each P f)
    (hput : ∀ a cs, f.treeAt p = tree a cs → P a cs.roots → Each P cs →
      ∃ cs', put a cs = tree a cs' ∧ P a cs'.roots ∧ Each P cs') : Each P (f.replace p put) := by
  cases hany : f.any p with
  | false => rwa [replace_eq_self hany]
  | true =>
    obtain ⟨up, l, a, cs, r, rfl, -, htree, hreplace⟩ := exists_replace_spot hany
    have hin := each_append.mp (Each.of_wrap up h)
    obtain ⟨cs', hcs', hat, hbelow⟩ := hput a cs htree hin.2.1 hin.2.2.1
    rw [hreplace, hcs']
    exact h.wrap_of_roots (each_append.mpr ⟨hin.1, hat, hbelow, hin.2.2.2⟩) (by simp [roots])

theorem Each.prune {p : α → Bool} (h : Each P f) (hP : Lenient P K) : Each P (f.prune p) :=
  h.replace hP fun _ _ _ _ _ _ _ => ⟨trivial, by simp [roots]⟩

end WordTemplate.Forest
