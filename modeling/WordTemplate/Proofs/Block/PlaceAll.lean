import WordTemplate.Proofs.Block.Outline

/-!
# Placing all blocks

Blocks are placed in the order in which they begin, each before those within it. By induction on the
outline, every step meets the landmarks of its block as they were laid out, up to the nodes above
them: `placeAll_spec` says that all blocks are placed and that the result is anchored.
-/

namespace WordTemplate

open Xml Forest

/-! ## What stays inside other bounds -/

/-- Whether landmarks `ls'` that came from `ls` are inside the bounds that `ls` was inside of. The
first of the landmarks around both must not be at the end of the bounds. -/
def Keeps (fresh : Nat) (around ls ls' : List Landmark) : Prop :=
  ∀ (q : List Crumb) (last : NodeId), last.number < fresh → (∀ z ∈ ls, Inside q last z) →
    (∀ z ∈ around, q <:+ z.path) → (∀ z ∈ around.head?, last ∉ z.node :: z.above) →
    ∀ z ∈ ls', Inside q last z

theorem Inside.relocate {q : List Crumb} {last : NodeId} {z : Landmark} {g : NodeId → NodeId}
    {fresh : Nat} (h : Inside q last z) (hlast : last.number < fresh)
    (hg : ∀ i, g i = i ∨ fresh ≤ (g i).number) (hq : ∀ j ∈ q, g j.node = j.node) :
    Inside q last (z.relocate g) := by
  obtain ⟨hn, hs⟩ := h
  rw [List.mem_cons, not_or] at hn
  refine ⟨?_, ?_⟩
  · rw [relocate_node, List.mem_cons, not_or]
    refine ⟨hn.1, fun hmem => ?_⟩
    rw [above_relocate] at hmem
    obtain ⟨i, hi, rfl⟩ := List.mem_map.mp hmem
    rcases hg i with he | hf
    · exact hn.2 (by rw [he]; exact hi)
    · omega
  · have := hs.map (Crumb.relocate g)
    have hqg : q.map (Crumb.relocate g) = q := by
      conv_rhs => rw [← List.map_id q]
      refine List.map_congr_left fun j hj => ?_
      simp only [Crumb.relocate, id_eq]
      rw [hq j hj]
    rw [hqg] at this
    exact this

@[simp] theorem relocate_relocate {g h : NodeId → NodeId} {x : Landmark} :
    (x.relocate g).relocate h = x.relocate (h ∘ g) := by
  simp [Landmark.relocate, Crumb.relocate, Function.comp_def]

section Places

variable {d d' : Document} {root : NodeId} {mute : List String} {k : Crumb} {c : List Crumb}
  {number : Nat} {block : Block} {u v w K : List Landmark} {s e α : Landmark} {last : NodeId}
  {g : NodeId → NodeId}

theorem Places.fixed_of_suffix (h : Places d d' root mute k c number block u s K v e w α last g)
    {q : List Crumb} (hq : q <:+ α.path) : ∀ j ∈ q, g j.node = j.node := fun j hj =>
  h.fixed j.node (List.mem_map_of_mem (hq.mem hj))

theorem Places.suffix_region (h : Places d d' root mute k c number block u s K v e w α last g)
    (hs : InRegion k c s) (he : InRegion k c e) : k :: c <:+ α.path :=
  h.common _ hs.suffix he.suffix

/-- The anchor is inside the bounds of a block around it. -/
theorem Places.inside (h : Places d d' root mute k c number block u s K v e w α last g)
    {q : List Crumb} {m : NodeId} (hm : m.number < d.fresh) (hs : m ∉ s.node :: s.above)
    (hqs : q <:+ s.path) (hqe : q <:+ e.path) : Inside q m α := by
  refine ⟨?_, h.common q hqs hqe⟩
  rw [List.mem_cons, not_or] at hs ⊢
  refine ⟨fun he => ?_, fun hmem => ?_⟩
  · have := h.fresh_le
    rw [← he] at this
    omega
  · obtain ⟨j, hj, rfl⟩ := List.mem_map.mp hmem
    exact hs.2 (List.mem_map_of_mem (h.suffix_start.mem hj))

/-- What lies between the ends of a block stays inside the bounds of a block around it. -/
theorem Places.inside_of_mem (h : Places d d' root mute k c number block u s K v e w α last g)
    {q : List Crumb} {m : NodeId} (hm : m.number < d.fresh) (hv : ∀ z ∈ v, Inside q m z)
    (hqs : q <:+ s.path) (hqe : q <:+ e.path) : ∀ z ∈ v.map (·.relocate g), Inside q m z := by
  intro z hz
  obtain ⟨y, hy, rfl⟩ := List.mem_map.mp hz
  exact (hv y hy).relocate hm h.relocates (h.fixed_of_suffix (h.common q hqs hqe))

theorem Places.last_lt (h : Places d d' root mute k c number block u s K v e w α last g)
    (wf : d.WellFormed) : last.number < d'.fresh :=
  Nat.lt_of_lt_of_le (wf.lt_fresh _ h.last_mem) h.grows.fresh_le

/-- The bounds of a block hold around what the blocks within it become. -/
theorem Places.bounded_of_keeps (h : Places d d' root mute k c number block u s K v e w α last g)
    (wf : d.WellFormed) {around ls : List Landmark}
    (hk : Keeps d'.fresh around (v.map (·.relocate g)) ls) (ha : around = [] ∨ around = [s, e]) :
    Bounded α ls e last where
  path_ne_nil := h.bounded.path_ne_nil
  end_eq := h.bounded.end_eq
  between := by
    refine hk α.path last (h.last_lt wf) h.bounded.between ?_ ?_
    · rcases ha with rfl | rfl
      · simp
      · simp [h.suffix_start, h.suffix_end]
    · rcases ha with rfl | rfl
      · simp
      · intro z hz
        obtain rfl : s = z := by simpa using hz
        exact h.last_start

end Places

/-! ## All blocks -/

theorem placeAll_cons {d₀ d₁ d₂ d₃ : Document} {number : Nat} {block : Block}
    {inner rest : Forest (Nat × Block)} {p : Block.Placed} {I R : Forest Block.Placed}
    (h₁ : Block.placeOne number block d₀ = .ok p d₁) (h₂ : Block.placeAll inner d₁ = .ok I d₂)
    (h₃ : Block.placeAll rest d₂ = .ok R d₃) :
    Block.placeAll (cons (number, block) inner rest) d₀ = .ok (cons p I R) d₃ := by
  simp [Block.placeAll, bind, EStateM.bind, h₁, h₂, h₃, pure, EStateM.pure]

/-- What placing blocks does to a document, whose landmarks `ls` become `ls'`. -/
structure PlacesAll (d d' : Document) (root : NodeId) (mute : List String) (number : Nat)
    (B : Forest Block) (B' : Forest Block.Placed) (around ls ls' : List Landmark) : Prop where
  run : Block.placeAll (B.number number) d = .ok B' d'
  grows : d.Grows d'
  sound : Sound mute (labels (d'.treeAt root))
  numbers_eq : B'.map (fun p => (p.number, p.block)) = B.number number
  keeps : Keeps d.fresh around ls ls'

/-- The statement of `placeAll_spec` for each role of a layout, with the landmarks relocated by `g`
before. -/
def Placeable (root : NodeId) (mute : List String) (region : NodeId → Region)
    (g : NodeId → NodeId) :
    Role → Forest Part → Forest Block → List Landmark → Prop
  | .level, P, B, ls => ∀ (d : Document) (number : Nat) (pre post : List Landmark),
      d.WellFormed → Sound mute (labels (d.treeAt root)) →
      landmarks (d.treeAt root) = pre ++ (ls ++ post) →
      ∃ B' ls' d', PlacesAll d d' root mute number B B' [] ls ls' ∧ Anchored none P B' ls' ∧
        landmarks (d'.treeAt root) = pre ++ (ls' ++ post)
  | .passages _ start stop, P, B, ls =>
    ∀ (d : Document) (number : Nat) (pre K post : List Landmark) (s e : Landmark),
      d.WellFormed → Sound mute (labels (d.treeAt root)) →
      landmarks (d.treeAt root) = pre ++ s :: (K ++ (ls ++ e :: post)) →
      (K = [] ∨ Opened d root pre s K (ls ++ [e])) →
      InRegion ((region start.node).relocate g).1 ((region start.node).relocate g).2 s →
      InRegion ((region start.node).relocate g).1 ((region start.node).relocate g).2 e →
      start.node = s.node → stop.node = e.node → e.sign.isAnchor = false →
      ∃ B' ls' d', PlacesAll d d' root mute number B B' [s, e] ls ls' ∧
        Anchored (some e) P B' ls' ∧
        landmarks (d'.treeAt root) = pre ++ s :: (K ++ (ls' ++ e :: post))

/-- Placing a passage of a block: the first one behind the anchor of the block, or another one. -/
theorem exists_places_passage {d : Document} {root : NodeId} {mute : List String} {k : Crumb}
    {c : List Crumb} {u v w K inside z : List Landmark} {s e : Landmark} (number : Nat) (block : Block)
    (wf : d.WellFormed) (hs : Sound mute (labels (d.treeAt root)))
    (hmute : Word.paragraph ∉ mute)
    (hU : landmarks (d.treeAt root) = u ++ s :: (K ++ (v ++ e :: w)))
    (hK : K = [] ∨ Opened d root u s K inside) (hinside : inside = v ++ e :: z)
    (hrs : InRegion k c s) (hre : InRegion k c e) (hv : ∀ x ∈ v, x.sign.isAnchor = false)
    (he : e.sign.isAnchor = false) (hstart : block.start.node = s.node)
    (hstop : block.stop.node = e.node) :
    ∃ α last g d', Places d d' root mute k c number block u s K v e w α last g := by
  rcases hK with rfl | hopened
  · exact placeOne_spec number block wf hs hmute hU hrs hre hv he hstart hstop
  · exact placeOne_opened wf hs hmute hU hopened hinside hrs hre hv he hstart hstop

theorem keeps_cons {fresh : Nat} {x : Landmark} {ls ls' : List Landmark}
    (h : Keeps fresh [] ls ls') : Keeps fresh [] (x :: ls) (x :: ls') := by
  intro q last hlast hin haround hhead z hz
  rcases List.mem_cons.mp hz with rfl | hz
  · exact hin z (by simp)
  · exact h q last hlast (fun z hz => hin z (by simp [hz])) haround hhead z hz

theorem Keeps.mono {fresh fresh' : Nat} {around ls ls' : List Landmark}
    (h : Keeps fresh' around ls ls') (hle : fresh ≤ fresh') : Keeps fresh around ls ls' :=
  fun q last hlast => h q last (Nat.lt_of_lt_of_le hlast hle)

theorem Places.region_eq {d d' : Document} {root : NodeId} {mute : List String} {r : Region}
    {number : Nat} {block : Block} {u K v w : List Landmark} {s e α : Landmark} {last : NodeId}
    {g g' : NodeId → NodeId}
    (h : Places d d' root mute (r.relocate g).1 (r.relocate g).2 number block u s K v e w α last g')
    (hs : InRegion (r.relocate g).1 (r.relocate g).2 s)
    (he : InRegion (r.relocate g).1 (r.relocate g).2 e) :
    r.relocate (g' ∘ g) = r.relocate g := by
  have hfix := h.fixed_of_suffix (h.suffix_region hs he)
  have key : ∀ j : Crumb, j.relocate g ∈ (r.relocate g).1 :: (r.relocate g).2 →
      j.relocate (g' ∘ g) = j.relocate g := by
    intro j hj
    have := hfix _ hj
    simp only [Crumb.relocate, Function.comp_apply] at this ⊢
    rw [this]
  refine Prod.ext (key _ (by simp [Region.relocate])) (List.map_congr_left fun j hj => key j ?_)
  exact List.mem_cons_of_mem _ (List.mem_map_of_mem hj)

/-- The blocks of a layout can be placed, whatever was placed around them before. -/
theorem Layout.placeable (root : NodeId) {mute : List String} {region : NodeId → Region}
    {role : Role} {P : Forest Part} {B : Forest Block} {ls : List Landmark}
    (hmute : Word.paragraph ∉ mute) (h : Layout role P B ls) (hr : Regional region B ls) :
    ∀ g : NodeId → NodeId,
      Placeable root mute region g role P B (ls.map (·.relocate g)) := by
  induction h with
  | nil =>
    intro g d number pre post wf hs hU
    exact ⟨Forest.nil, [], d, ⟨rfl, .refl wf, hs, rfl, fun _ _ _ _ _ _ z hz => by simp at hz⟩, .nil,
      hU⟩
  | @text x content P B ls hx _ ih =>
    intro g d number pre post wf hs hU
    obtain ⟨B', ls', d', hp, ha, hU'⟩ := ih (hr.mono (fun _ h => h) fun _ h => by simp [h]) g d number
      (pre ++ [x.relocate g]) post wf hs (by simpa using hU)
    exact ⟨B', x.relocate g :: ls', d', ⟨hp.run, hp.grows, hp.sound, hp.numbers_eq,
      keeps_cons hp.keeps⟩, .text hx ha, by simpa using hU'⟩
  | @value x m P B ls hx hk _ ih =>
    intro g d number pre post wf hs hU
    obtain ⟨B', ls', d', hp, ha, hU'⟩ := ih (hr.mono (fun _ h => h) fun _ h => by simp [h]) g d number
      (pre ++ [x.relocate g]) post wf hs (by simpa using hU)
    exact ⟨B', x.relocate g :: ls', d', ⟨hp.run, hp.grows, hp.sound, hp.numbers_eq,
      keeps_cons hp.keeps⟩, .value hx.relocate hk ha, by simpa using hU'⟩
  | @keyword x m P B ls hx hk _ ih =>
    intro g d number pre post wf hs hU
    have hr' := (hr.inRegion ⟨.inlineKeyword, m, m⟩ (by simp [toList]) x (by simp)
      (.inl hx.node_eq.symm)).relocate g
    obtain ⟨α, d₁, hrun, hgrows, hs₁, hU₁, hsign, hfresh, hpath, hmem, -⟩ :=
      placeOne_keyword number ⟨.inlineKeyword, m, m⟩ wf hs hmute
        (u := pre) (w := ls.map (·.relocate g) ++ post) hU hr' hx.isAnchor_eq hx.node_eq hx.node_eq
    obtain ⟨B', ls', d', hp, ha, hU'⟩ := ih (hr.mono (fun _ h => by simp [toList, h])
      fun _ h => by simp [h]) g d₁ (number + 1) (pre ++ [α, x.relocate g]) post hgrows.wellFormed hs₁
      (by simpa using hU₁)
    have hne : α.path ≠ [] := by
      obtain ⟨inner, hpx, -⟩ := hr'
      rw [hpath, hpx]
      simp
    refine ⟨cons ⟨number, ⟨.inlineKeyword, m, m⟩, α.node, (x.relocate g).node⟩ Forest.nil B',
      α :: x.relocate g :: ls', d', ⟨?_, hgrows.trans hp.grows, hp.sound, ?_, ?_⟩,
      .keyword hx.relocate hk hsign hpath hne ha, by simpa using hU'⟩
    · exact placeAll_cons hrun rfl hp.run
    · simp only [Forest.map, Forest.number, size, Nat.add_zero]
      rw [hp.numbers_eq]
    · intro q last hlast hin haround hhead z hz
      have hx' := hin (x.relocate g) (by simp)
      rcases List.mem_cons.mp hz with rfl | hz
      · refine ⟨?_, hpath ▸ hx'.2⟩
        have habove : z.above = (x.relocate g).above := by simp [Landmark.above, hpath]
        rw [List.mem_cons, not_or, habove]
        refine ⟨fun he => ?_, fun hm => hx'.1 (by simp [hm])⟩
        rw [← he] at hfresh
        omega
      · exact keeps_cons (hp.keeps.mono hgrows.fresh_le) q last hlast hin haround hhead z hz
  | @block s e start stop PS P BS B mid ls hsh heh h₁ h₂ h₃ hmid hls ihm ih =>
    intro g d number pre post wf hs hU
    have hbs : (⟨start.directive.kind, start, stop⟩ : Block) ∈
        (cons ⟨start.directive.kind, start, stop⟩ BS B).toList := by simp [toList]
    have hsame : region stop.node = region start.node := (hr.start_eq_stop _ hbs).symm
    have hrs' := (hr.inRegion _ hbs s (by simp) (.inl hsh.node_eq.symm)).relocate g
    have hre' := (hr.inRegion _ hbs e (by simp) (.inr heh.node_eq.symm)).relocate g
    rw [← hsh.node_eq] at hrs'
    rw [← heh.node_eq, hsame] at hre'
    have hv : ∀ z ∈ mid.map (·.relocate g), z.sign.isAnchor = false := by
      intro z hz
      obtain ⟨y, hy, rfl⟩ := List.mem_map.mp hz
      exact hmid.isAnchor_eq y hy
    obtain ⟨α, last, g₁, d₁, hp₁⟩ := placeOne_spec number
      ⟨start.directive.kind, start, stop⟩ (u := pre)
      (w := ls.map (·.relocate g) ++ post) wf hs hmute (by simpa using hU) hrs' hre' hv
      heh.isAnchor_eq hsh.node_eq heh.node_eq
    have hregion := hp₁.region_eq (r := region start.node) hrs' hre'
    have hmap : (mid.map (·.relocate g)).map (·.relocate g₁) = mid.map (·.relocate (g₁ ∘ g)) := by
      simp [Function.comp_def]
    have hopened := hp₁.opened
    have hU₁ := hp₁.landmarks_eq
    rw [hmap, List.nil_append] at hopened hU₁
    -- The passages of the block, and then what comes behind it.
    obtain ⟨BS', mid', d₂, hp₂, ha₂, hU₂⟩ := ihm (hr.mono (fun _ h => by simp [toList, h])
      fun _ h => by simp [h]) (g₁ ∘ g) d₁ (number + 1) pre [α]
      (ls.map (·.relocate g) ++ post) (s.relocate g) (e.relocate g) hp₁.grows.wellFormed hp₁.sound
      hU₁ (.inr hopened) (by rw [hregion]; exact hrs') (by rw [hregion]; exact hre') hsh.node_eq
      heh.node_eq heh.isAnchor_eq
    obtain ⟨B', ls', d', hp₃, ha₃, hU₃⟩ := ih (hr.mono (fun _ h => by simp [toList, h])
      fun _ h => by simp [h]) g d₂ (number + 1 + BS.size)
      (pre ++ s.relocate g :: α :: (mid' ++ [e.relocate g])) post hp₂.grows.wellFormed hp₂.sound
      (by simpa using hU₂)
    have hkeep := hp₂.keeps
    rw [← hmap] at hkeep
    refine ⟨cons ⟨number, ⟨start.directive.kind, start, stop⟩, α.node, last⟩ BS' B',
      s.relocate g :: α :: (mid' ++ e.relocate g :: ls'), d', ⟨?_,
        (hp₁.grows.trans hp₂.grows).trans hp₃.grows, hp₃.sound, ?_, ?_⟩,
      .block hsh.relocate heh.relocate h₁ h₂ h₃ hp₁.sign_eq
        (hp₁.bounded_of_keeps wf hkeep (.inr rfl)) ha₂ ha₃, by simpa using hU₃⟩
    · exact placeAll_cons hp₁.run hp₂.run hp₃.run
    · simp only [Forest.map, Forest.number]
      rw [hp₂.numbers_eq, hp₃.numbers_eq]
    · intro q m hm hin haround hhead z hz
      have hs' := hin (s.relocate g) (by simp)
      have he' := hin (e.relocate g) (by simp)
      simp only [List.mem_cons, List.mem_append] at hz
      rcases hz with rfl | rfl | hz | rfl | hz
      · exact hs'
      · exact hp₁.inside hm hs'.1 hs'.2 he'.2
      · refine hkeep q m (Nat.lt_of_lt_of_le hm hp₁.grows.fresh_le) ?_ ?_ ?_ z hz
        · exact hp₁.inside_of_mem hm (fun y hy => hin y (by
            simp only [List.map_cons, List.map_append, List.mem_cons, List.mem_append]
            exact .inr (.inl hy))) hs'.2 he'.2
        · simp [hs'.2, he'.2]
        · intro y hy
          obtain rfl : s.relocate g = y := by simpa using hy
          exact hs'.1
      · exact he'
      · refine hp₃.keeps q m (Nat.lt_of_lt_of_le hm (hp₁.grows.trans hp₂.grows).fresh_le)
          (fun y hy => hin y ?_) (by simp) (by simp) z hz
        simp only [List.map_cons, List.map_append, List.mem_cons, List.mem_append]
        exact .inr (.inr (.inr hy))
  | @last kind start stop P B ls hls ih =>
    intro g d number pre K post s e wf hs hU hK hrs hre hstart hstop hse
    have hv : ∀ z ∈ ls.map (·.relocate g), z.sign.isAnchor = false := by
      intro z hz
      obtain ⟨y, hy, rfl⟩ := List.mem_map.mp hz
      exact hls.isAnchor_eq y hy
    obtain ⟨α, last, g₁, d₁, hp₁⟩ := exists_places_passage number
      ⟨kind, start, stop⟩ (z := []) wf hs hmute hU hK rfl hrs hre hv hse hstart hstop
    have hmap : (ls.map (·.relocate g)).map (·.relocate g₁) = ls.map (·.relocate (g₁ ∘ g)) := by
      simp [Function.comp_def]
    have hU₁ := hp₁.landmarks_eq
    rw [hmap] at hU₁
    obtain ⟨B', ls', d', hp₂, ha₂, hU₂⟩ := ih (hr.mono (fun _ h => by simp [tree, toList, h])
      fun _ h => h) (g₁ ∘ g) d₁ (number + 1)
      (pre ++ s :: (K ++ [α])) (e :: post) hp₁.grows.wellFormed hp₁.sound (by simpa using hU₁)
    have hkeep := hp₂.keeps
    rw [← hmap] at hkeep
    refine ⟨tree ⟨number, ⟨kind, start, stop⟩, α.node, last⟩ B', α :: ls', d',
      ⟨?_, hp₁.grows.trans hp₂.grows, hp₂.sound, ?_, ?_⟩,
      .last hp₁.sign_eq (hp₁.bounded_of_keeps wf hkeep (.inl rfl)) ha₂, by simpa using hU₂⟩
    · exact placeAll_cons hp₁.run hp₂.run rfl
    · simp only [tree, Forest.map, Forest.number]
      rw [hp₂.numbers_eq]
    · intro q m hm hin haround hhead z hz
      have hqs := haround s (by simp)
      have hqe := haround e (by simp)
      rcases List.mem_cons.mp hz with rfl | hz
      · exact hp₁.inside hm (hhead s rfl) hqs hqe
      · exact hkeep q m (Nat.lt_of_lt_of_le hm hp₁.grows.fresh_le)
          (hp₁.inside_of_mem hm hin hqs hqe) (by simp) (by simp) z hz
  | @more kind x start next stop P PS B BS ls rest hls hx hk hrest ih ihr =>
    intro g d number pre K post s e wf hs hU hK hrs hre hstart hstop hse
    have hbs : (⟨kind, start, next⟩ : Block) ∈ (cons ⟨kind, start, next⟩ B BS).toList := by
      simp [toList]
    have hsame : region next.node = region start.node := (hr.start_eq_stop _ hbs).symm
    have hrx := (hr.inRegion _ hbs x (by simp) (.inr hx.node_eq.symm)).relocate g
    rw [← hx.node_eq, hsame] at hrx
    have hv : ∀ z ∈ ls.map (·.relocate g), z.sign.isAnchor = false := by
      intro z hz
      obtain ⟨y, hy, rfl⟩ := List.mem_map.mp hz
      exact hls.isAnchor_eq y hy
    obtain ⟨α, last, g₁, d₁, hp₁⟩ := exists_places_passage number
      ⟨kind, start, next⟩ (e := x.relocate g)
      (w := rest.map (·.relocate g) ++ e :: post) (z := rest.map (·.relocate g) ++ [e]) wf hs hmute
      (by simpa using hU) hK (by simp) hrs hrx hv hx.isAnchor_eq hstart hx.node_eq
    have hmap : (ls.map (·.relocate g)).map (·.relocate g₁) = ls.map (·.relocate (g₁ ∘ g)) := by
      simp [Function.comp_def]
    have hU₁ := hp₁.landmarks_eq
    rw [hmap] at hU₁
    -- What is in the passage, and then the other passages.
    obtain ⟨B', ls', d₂, hp₂, ha₂, hU₂⟩ := ih (hr.mono (fun _ h => by simp [toList, h])
      fun _ h => by simp [h]) (g₁ ∘ g) d₁ (number + 1)
      (pre ++ s :: (K ++ [α])) (x.relocate g :: (rest.map (·.relocate g) ++ e :: post))
      hp₁.grows.wellFormed hp₁.sound (by simpa using hU₁)
    obtain ⟨BS', rest', d', hp₃, ha₃, hU₃⟩ := ihr (hr.mono (fun _ h => by simp [toList, h])
      fun _ h => by simp [h]) g d₂ (number + 1 + B.size)
      (pre ++ s :: (K ++ α :: ls')) [] post (x.relocate g) e hp₂.grows.wellFormed hp₂.sound
      (by simpa using hU₂) (.inl rfl) (by rw [hsame]; exact hrx) (by rw [hsame]; exact hre) hx.node_eq
      hstop hse
    have hkeep := hp₂.keeps
    rw [← hmap] at hkeep
    refine ⟨cons ⟨number, ⟨kind, start, next⟩, α.node, last⟩ B' BS', α :: (ls' ++ x.relocate g :: rest'),
      d', ⟨?_, (hp₁.grows.trans hp₂.grows).trans hp₃.grows, hp₃.sound, ?_, ?_⟩,
      .more hp₁.sign_eq (hp₁.bounded_of_keeps wf hkeep (.inl rfl)) hx.relocate hk ha₂ ha₃,
      by simpa using hU₃⟩
    · exact placeAll_cons hp₁.run hp₂.run hp₃.run
    · simp only [Forest.map, Forest.number]
      rw [hp₂.numbers_eq, hp₃.numbers_eq]
    · intro q m hm hin haround hhead z hz
      have hqs := haround s (by simp)
      have hqe := haround e (by simp)
      have hx' := hin (x.relocate g) (by simp)
      have hls' : ∀ y ∈ ls.map (·.relocate g), Inside q m y := fun y hy => hin y (by
        rw [List.map_append]
        exact List.mem_append_left _ hy)
      simp only [List.mem_cons, List.mem_append] at hz
      rcases hz with rfl | hz | rfl | hz
      · exact hp₁.inside hm (hhead s rfl) hqs hx'.2
      · exact hkeep q m (Nat.lt_of_lt_of_le hm hp₁.grows.fresh_le)
          (hp₁.inside_of_mem hm hls' hqs hx'.2) (by simp) (by simp) z hz
      · exact hx'
      · refine hp₃.keeps q m (Nat.lt_of_lt_of_le hm (hp₁.grows.trans hp₂.grows).fresh_le)
          (fun y hy => hin y ?_) ?_ ?_ z hz
        · rw [List.map_append, List.map_cons]
          exact List.mem_append_right _ (List.mem_cons_of_mem _ hy)
        · simp [hx'.2, hqe]
        · intro y hy
          obtain rfl : x.relocate g = y := by simpa using hy
          exact hx'.1

/-- The blocks of a layout are placed, and the result is anchored. -/
theorem placeAll_spec {d : Document} {root : NodeId} {mute : List String} {region : NodeId → Region}
    {P : Forest Part} {B : Forest Block} {ls pre post : List Landmark} (h : Layout .level P B ls)
    (hr : Regional region B ls) (number : Nat) (hmute : Word.paragraph ∉ mute)
    (wf : d.WellFormed) (hs : Sound mute (labels (d.treeAt root)))
    (hU : landmarks (d.treeAt root) = pre ++ (ls ++ post)) :
    ∃ B' ls' d', PlacesAll d d' root mute number B B' [] ls ls' ∧ Anchored none P B' ls' ∧
      landmarks (d'.treeAt root) = pre ++ (ls' ++ post) := by
  have := h.placeable root hmute hr id
  simp only [relocate_id, List.map_id'] at this
  exact this d number pre post wf hs hU

end WordTemplate
