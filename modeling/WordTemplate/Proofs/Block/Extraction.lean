import WordTemplate.Block.Template
import WordTemplate.Proofs.Block.PlaceAll
import WordTemplate.Proofs.Word.Sign
import WordTemplate.Proofs.Xml.Scope

/-!
# Taking contents out

The content of a block is what its bounds enclose. When it is taken out, the inner blocks have been
emptied before, so that the content shows their anchors and directives and nothing of what is inside
them: `Framed` relates an outline to blocks whose contents show that.

* `extract_spec`: the content of one block.
* `extractAll_spec`: all blocks of an anchored outline become framed.
-/

namespace WordTemplate

open Xml Forest

variable {d d' : Document} {root : NodeId} {mute : List String}

/-! ## Taking out siblings -/

theorem Xml.Document.detachAll_spec {fr : Frame Node} {up : List (Frame Node)}
    {l mid r : Forest Node} (wf : d.WellFormed)
    (h : d.treeAt root = wrap (fr :: up) (l ++ (mid ++ r))) :
    d.Within (d.detachAll (mid.roots.map Node.id)) root ∧
      (d.detachAll (mid.roots.map Node.id)).treeAt root = wrap (fr :: up) (l ++ r) ∧
      (d.detachAll (mid.roots.map Node.id)).treesAt (mid.roots.map Node.id) = mid ∧
      ∀ n ∈ mid.roots.map Node.id, (d.detachAll (mid.roots.map Node.id)).Apart root n := by
  induction mid generalizing d with
  | nil => exact ⟨.refl wf, h, rfl, by simp [roots]⟩
  | cons node cs rest _ ih =>
    have hmem : node.id ∈ Xml.ids (d.treeAt root) := by
      rw [h, ids_wrap]
      simp
    have hne : root ≠ node.id := Ne.symm (wf.ne_of_spot h)
    have hnd := wf.nodup_treeAt root
    have hroot : (d.detach node.id).treeAt root = wrap (fr :: up) (l ++ (rest ++ r)) := by
      rw [wf.treeAt_detach, if_neg hne]
      exact prune_spot hnd h
    have hnode : (d.detach node.id).treeAt node.id = tree node cs := by
      rw [wf.treeAt_detach, if_pos rfl, ← wf.treeAt_treeAt hmem]
      exact treeAt_spot hnd h
    have hwithin : d.Within (d.detach node.id) root := (Document.Within.refl wf).detach wf hmem
    have hapart : (d.detach node.id).Apart root node.id := by
      refine ⟨hwithin.grows.mem_ids _ (wf.mem_ids_of_mem_treeAt hmem), fun i hi hi' => ?_⟩
      rw [hnode] at hi
      rw [hroot] at hi'
      rw [h] at hnd
      simp only [ids_wrap, ids_append, ids_cons, ids_tree, cons_append] at hnd hi hi'
      simp only [List.nodup_append, List.nodup_cons, List.mem_append, List.mem_cons] at hnd hi hi'
      grind
    obtain ⟨hw, ht, hcontent, hall⟩ := ih hwithin.grows.wellFormed hroot
    have hsame := hw.treeAt_eq node.id hapart
    have hrun : d.detachAll ((cons node cs rest).roots.map Node.id) =
        (d.detach node.id).detachAll (rest.roots.map Node.id) := rfl
    rw [hrun]
    refine ⟨hwithin.trans hw wf, ht, ?_, fun n hn => ?_⟩
    · simp only [roots, List.map_cons, Document.treesAt, List.foldr_cons] at hcontent ⊢
      rw [hcontent, hsame, hnode]
      rfl
    · rcases List.mem_cons.mp hn with rfl | hn
      · exact hw.apart hwithin.grows.wellFormed hapart
      · exact hall n hn

/-! ## The content of one block -/

/-- The trees between the anchor of a block and the node at its end. -/
theorem Bounded.exists_eq {f : Forest Node} {u v w : List Landmark} {α e : Landmark}
    {last : NodeId} (hnd : (ids f).Nodup) (hb : Bounded α v e last)
    (h : landmarks f = u ++ α :: (v ++ e :: w)) :
    ∃ fr up left a as mid b bs right, f = wrap (fr :: up) (left ++ cons a as (mid ++ cons b bs right)) ∧
      IsOpen (fr :: up) ∧ a.label.isLandmark = true ∧ a.id = α.node ∧ b.id = last ∧
      v = (landmarks mid).map (·.below (crumbs (fr :: up))) ∧
      landmarks (wrap (fr :: up) (left ++ cons a as (cons b bs right))) = u ++ α :: e :: w := by
  obtain ⟨⟨up, left, a, as, mid, b, bs, right, u₁, x, v₁, v₂, y, w₂, hf, hopen, hla, hlb, rfl, rfl,
    rfl, rfl, rfl⟩⟩ := exists_fork h
  have hdis : ∀ i ∈ ids (tree a as), i ∉ ids (tree b bs) := by
    rw [hf, ids_wrap] at hnd
    simp only [ids_append, ids_cons, ids_tree, List.nodup_append, List.nodup_cons, List.mem_append,
      List.mem_cons] at hnd ⊢
    grind
  obtain ⟨inner, hend⟩ := hb.end_eq
  have hchain : y.node :: y.above = inner ++ last :: x.above := by
    have : (y.node :: y.above) ++ (crumbs up).map Crumb.node =
        (inner ++ last :: x.above) ++ (crumbs up).map Crumb.node := by
      simpa using hend
    exact List.append_cancel_right this
  have hy : ∀ i ∈ y.node :: y.above, i ∈ ids (tree b bs) := by
    have := mem_ids_of_mem_landmarks (f := tree b bs) (x := y) (by simp [hlb])
    rintro i (_ | ⟨_, hi⟩)
    · exact this.1
    · exact this.2 i hi
  -- The anchor stands at the top of its tree.
  by_cases hl : a.label.isLandmark = true
  · rw [landmarks_tree_of_isLandmark as hl] at hla
    obtain ⟨rfl, rfl, rfl⟩ : u₁ = [] ∧ v₁ = [] ∧ x = ⟨a.id, signOf a.label as, []⟩ := by
      cases u₁ with
      | nil =>
        simp only [List.nil_append, List.cons.injEq] at hla
        exact ⟨rfl, hla.2.symm, hla.1.symm⟩
      | cons z u₁ => simp at hla
    obtain ⟨inner', hb'⟩ := exists_chain (show y ∈ landmarks (tree b bs) by simp [hlb])
    obtain rfl : last = b.id := by
      rw [hb'] at hchain
      simpa [Landmark.above] using (congrArg List.getLast? hchain).symm
    have hv₂ : v₂ = [] := by
      cases v₂ with
      | nil => rfl
      | cons z v₂ =>
        have hz := (hb.between (z.below (crumbs up)) (by simp)).1
        obtain ⟨inner', hz'⟩ := exists_chain (show z ∈ landmarks (tree b bs) by simp [hlb])
        refine absurd ?_ hz
        rw [Landmark.below_node, Landmark.above_below, ← List.cons_append, hz']
        simp
    obtain ⟨fr, up', rfl⟩ : ∃ fr up', up = fr :: up' := by
      cases up with
      | nil => exact absurd (by simp) hb.path_ne_nil
      | cons fr up' => exact ⟨fr, up', rfl⟩
    refine ⟨fr, up', left, a, as, mid, b, bs, right, hf, hopen, hl, rfl, rfl, by simp [hv₂], ?_⟩
    rw [landmarks_wrap hopen, landmarks_append, landmarks_cons a as, landmarks_cons b bs, hlb, hv₂,
      landmarks_tree_of_isLandmark as hl]
    simp
  · rw [landmarks_tree as (by simpa using hl)] at hla
    have hx : x ∈ (landmarks as).map (·.below [crumbOf a]) := by simp [hla]
    obtain ⟨z, -, rfl⟩ := List.mem_map.mp hx
    have hmem : a.id ∈ y.node :: y.above := by
      rw [hchain]
      simp [crumbOf]
    exact absurd (hy _ hmem) (hdis a.id (by simp))

/-- The content of a block is what its bounds enclose. -/
theorem extract_spec {u v w : List Landmark} {α e : Landmark} {last : NodeId} (wf : d.WellFormed)
    (hs : Sound mute (labels (d.treeAt root)))
    (hU : landmarks (d.treeAt root) = u ++ α :: (v ++ e :: w)) (hb : Bounded α v e last) :
    d.Within (d.detachAll (d.between α.node last)) root ∧
      landmarks ((d.detachAll (d.between α.node last)).treeAt root) = u ++ α :: e :: w ∧
      Sound mute (labels ((d.detachAll (d.between α.node last)).treeAt root)) ∧
      (∀ n ∈ d.between α.node last, (d.detachAll (d.between α.node last)).Apart root n) ∧
      signs ((d.detachAll (d.between α.node last)).contentLabels (d.between α.node last)) =
        v.map Landmark.sign ∧
      Sound mute ((d.detachAll (d.between α.node last)).contentLabels (d.between α.node last)) := by
  obtain ⟨fr, up, left, a, as, mid, b, bs, right, hf, hopen, hl, ha, rfl, hv, hls⟩ :=
    hb.exists_eq (wf.nodup_treeAt root) hU
  obtain ⟨fr', up', hd, -, -⟩ := wf.exists_spot_of_treeAt hf
  have hbetween : d.between α.node b.id = mid.roots.map Node.id := by
    rw [← ha]
    exact Document.between_eq wf hd
  rw [hbetween]
  have hsplit : left ++ cons a as (mid ++ cons b bs right) =
      (left ++ tree a as) ++ (mid ++ cons b bs right) := by
    rw [append_assoc]
    rfl
  rw [hsplit] at hf
  obtain ⟨hw, ht, hcontent, hapart⟩ := Document.detachAll_spec wf hf
  have hjoin : left ++ tree a as ++ cons b bs right = left ++ cons a as (cons b bs right) := by
    rw [append_assoc]
    rfl
  rw [hjoin] at ht
  have hin := hs
  rw [hf] at hin
  have hparts := hin.of_wrap
  simp only [labels_append, sound_append] at hparts
  refine ⟨hw, by rw [ht]; exact hls, ?_, hapart, ?_, ?_⟩
  · rw [ht]
    refine hin.wrap ?_ ?_
    · simp only [labels_append, labels_tree, quiet_append, quiet_tree, hl]
      simp
    · rw [← hjoin, labels_append, labels_append, sound_append, sound_append]
      exact ⟨hparts.1, hparts.2.2⟩
  · rw [Document.contentLabels, hcontent, signs_labels, hv]
    simp
  · rw [Document.contentLabels, hcontent]
    exact hparts.2.1

/-! ## Framed outlines -/

/-- What a forest of blocks is: blocks side by side, or the passages of a block. -/
inductive Rank where
  | level
  | passages

/-- The outline of blocks without contents, and the signs that stand for it. Where the content of a
block was there is the anchor of the block; `content` says what the content shows. -/
inductive Framed (content : Block.Template → Forest Label) :
    Rank → Forest Part → Forest Block.Template → List Sign → Prop where
  | nil : Framed content .level nil nil []
  | text {s : String} {P : Forest Part} {T : Forest Block.Template} {ss : List Sign} :
      Framed content .level P T ss →
      Framed content .level (chars s.toList P) T (.text [] s :: ss)
  | value {directive : Directive} {P : Forest Part} {T : Forest Block.Template} {ss : List Sign} :
      directive.kind = .placeholder → Framed content .level P T ss →
      Framed content .level (cons (.value directive) nil P) T
        (.text [Directive.Kind.placeholder.name] directive.text :: ss)
  | mark {kind : Directive.Kind} {s : String} {rank : Rank} {P : Forest Part}
      {T : Forest Block.Template} {ss : List Sign} : kind ≠ .placeholder →
      Framed content rank P T ss → Framed content rank P T (.text [kind.name] s :: ss)
  | keyword {t : Block.Template} {P : Forest Part} {T : Forest Block.Template} {ss : List Sign} :
      t.kind = .inlineKeyword → Framed content .level P T ss →
      Framed content .level (cons (.keyword t.block.start.directive) nil P) (cons t nil T)
        (.anchor t.anchor.id :: ss)
  | block {t : Block.Template} {PS P : Forest Part} {TS T : Forest Block.Template}
      {ss : List Sign} : t.kind = t.block.start.directive.kind → t.kind.isBlockStart = true →
      t.kind ≠ .inlineKeyword → Framed content .passages PS TS (signs (content t)) →
      Framed content .level P T ss →
      Framed content .level (cons (.block t.block.start.directive) PS P) (cons t TS T)
        (.anchor t.anchor.id :: ss)
  | last {t : Block.Template} {P : Forest Part} {T : Forest Block.Template} :
      Framed content .level P T (signs (content t)) →
      Framed content .passages (tree (.passage t.kind) P) (tree t T) [.anchor t.anchor.id]
  | more {t : Block.Template} {P PS : Forest Part} {T TS : Forest Block.Template}
      {ss : List Sign} : Framed content .level P T (signs (content t)) →
      Framed content .passages PS TS ss →
      Framed content .passages (cons (.passage t.kind) P PS) (cons t T TS)
        (.anchor t.anchor.id :: ss)

/-- A directive that begins a block is no placeholder. -/
theorem ne_placeholder_of_isBlockStart {kind : Directive.Kind} (h : kind.isBlockStart = true) :
    kind ≠ .placeholder := by
  rintro rfl
  cases h

theorem Framed.congr {content content' : Block.Template → Forest Label} {rank : Rank}
    {P : Forest Part} {T : Forest Block.Template} {ss : List Sign} (h : Framed content rank P T ss)
    (hc : ∀ t ∈ T.toList, content' t = content t) : Framed content' rank P T ss := by
  induction h with
  | nil => exact .nil
  | text _ ih => exact .text (ih hc)
  | value hk _ ih => exact .value hk (ih hc)
  | mark hk _ ih => exact .mark hk (ih hc)
  | keyword hk _ ih => exact .keyword hk (ih fun t ht => hc t (by simp [toList, ht]))
  | @block t PS P TS T ss h₁ h₂ h₃ _ _ ihs ih =>
    refine .block h₁ h₂ h₃ ?_ (ih fun t ht => hc t (by simp [toList, ht]))
    rw [hc t (by simp [toList])]
    exact ihs fun t ht => hc t (by simp [toList, ht])
  | @last t P T _ ih =>
    refine .last ?_
    rw [hc t (by simp [toList, tree])]
    exact ih fun t ht => hc t (by simp [toList, tree, ht])
  | @more t P PS T TS ss _ _ ih ihs =>
    refine .more ?_ (ihs fun t ht => hc t (by simp [toList, ht]))
    rw [hc t (by simp [toList])]
    exact ih fun t ht => hc t (by simp [toList, ht])

/-! ## All contents -/

/-- What the content of a block is. -/
def Xml.Document.contentOf (d : Document) (t : Block.Template) : Forest Label :=
  d.contentLabels t.content

/-- Whether the contents of all blocks are sound and have nothing in common with the tree at
`scope`. -/
def Stored (d : Document) (scope : NodeId) (mute : List String) (T : Forest Block.Template) : Prop :=
  ∀ t ∈ T.toList, (∀ n ∈ t.content, d.Apart scope n) ∧ Sound mute (d.contentOf t)

theorem Xml.Document.Within.contentOf_eq {t : Block.Template} (h : d.Within d' root)
    (ht : ∀ n ∈ t.content, d.Apart root n) : d'.contentOf t = d.contentOf t := by
  rw [Document.contentOf, Document.contentLabels, Document.contentOf, Document.contentLabels,
    Document.treesAt_congr fun n hn => h.treeAt_eq n (ht n hn)]

theorem Stored.within {T : Forest Block.Template} (h : Stored d root mute T)
    (hw : d.Within d' root) (wf : d.WellFormed) : Stored d' root mute T := by
  intro t ht
  obtain ⟨ha, hs⟩ := h t ht
  refine ⟨fun n hn => hw.apart wf (ha n hn), ?_⟩
  rw [hw.contentOf_eq ha]
  exact hs

theorem Stored.contentOf_eq {T : Forest Block.Template} (h : Stored d root mute T)
    (hw : d.Within d' root) : ∀ t ∈ T.toList, d'.contentOf t = d.contentOf t :=
  fun t ht => hw.contentOf_eq (h t ht).1

theorem stored_cons {t : Block.Template} {T TS : Forest Block.Template} :
    Stored d root mute (cons t T TS) ↔ ((∀ n ∈ t.content, d.Apart root n) ∧
      Sound mute (d.contentOf t)) ∧ Stored d root mute T ∧ Stored d root mute TS := by
  unfold Stored
  simp only [toList, List.mem_cons, List.mem_append, or_imp, forall_and, forall_eq]
  tauto

/-- What taking all contents out does to the landmarks `ls` of the blocks. -/
structure Extracts (d d' : Document) (root : NodeId) (mute : List String) (rank : Rank)
    (P : Forest Part) (B : Forest Block.Placed) (T : Forest Block.Template)
    (ls ls' : List Landmark) : Prop where
  run : Block.extractAll B d = (T, d')
  within : d.Within d' root
  sound : Sound mute (labels (d'.treeAt root))
  sublist : ls'.Sublist ls
  framed : Framed d'.contentOf rank P T (ls'.map Landmark.sign)
  stored : Stored d' root mute T
  numbers_eq : T.map (fun t => (t.number, t.block)) = B.map fun p => (p.number, p.block)

theorem Bounded.sublist {α e : Landmark} {v v' : List Landmark} {last : NodeId}
    (h : Bounded α v e last) (hv : v'.Sublist v) : Bounded α v' e last :=
  ⟨h.path_ne_nil, h.end_eq, fun z hz => h.between z (hv.subset hz)⟩

theorem extractAll_cons {p : Block.Placed} {BS B : Forest Block.Placed}
    {TS T : Forest Block.Template} {d₁ d₂ : Document} (h₁ : Block.extractAll BS d = (TS, d₁))
    (h₂ : Block.extractAll B (d₁.detachAll (d₁.between p.first p.last)) = (T, d₂)) :
    Block.extractAll (cons p BS B) d =
      (cons ⟨p.number, p.block, d₁.between p.first p.last⟩ TS T, d₂) := by
  simp only [Block.extractAll, h₁, h₂]

/-- The anchor of a keyword stands in front of its text. -/
theorem bounded_of_path_eq {α x : Landmark} (h : α.path = x.path) (hne : α.path ≠ []) :
    Bounded α [] x x.node where
  path_ne_nil := hne
  end_eq := ⟨[], by simp [Landmark.above, h]⟩
  between := by simp

/-- A block, after what is in it has been taken out. -/
theorem extracts_cons (rank : Rank) {rank' rankS : Rank} {P PS P' : Forest Part} {p : Block.Placed}
    {BS B : Forest Block.Placed} {TS T : Forest Block.Template} {d₁ d₂ : Document}
    {α e : Landmark} {mid mid' ls ls' pre post : List Landmark} (front back : List Landmark) (wf : d.WellFormed)
    (hin : Extracts d d₁ root mute rankS PS BS TS mid mid')
    (hU₁ : landmarks (d₁.treeAt root) = pre ++ α :: (mid' ++ e :: post))
    (hfirst : p.first = α.node) (hb : Bounded α mid e p.last)
    (hout : Extracts (d₁.detachAll (d₁.between p.first p.last)) d₂ root mute rank' P' B T ls ls')
    (hframed : ∀ content ns, Framed content rankS PS TS (signs (content ⟨p.number, p.block, ns⟩)) →
      Framed content rank' P' T (ls'.map Landmark.sign) →
      Framed content rank P (cons ⟨p.number, p.block, ns⟩ TS T)
        ((front ++ α :: (back ++ ls')).map Landmark.sign)) :
    ∃ T', Extracts d d₂ root mute rank P (cons p BS B) T' (front ++ α :: (mid ++ (back ++ ls)))
      (front ++ α :: (back ++ ls')) := by
  obtain ⟨hw, -, -, hapart, hsigns, hsound⟩ :=
    extract_spec hin.within.grows.wellFormed hin.sound hU₁ (hb.sublist hin.sublist)
  rw [← hfirst] at hw hapart hsigns hsound
  have hrun := extractAll_cons hin.run hout.run
  have hstored₁ := (hin.stored.within hw hin.within.grows.wellFormed)
  have hsame₁ := hin.stored.contentOf_eq hw
  have hsame₂ := hstored₁.contentOf_eq hout.within
  have ht := hout.within.contentOf_eq
    (t := ⟨p.number, p.block, d₁.between p.first p.last⟩) hapart
  have hsigns' : signs (d₂.contentOf ⟨p.number, p.block, d₁.between p.first p.last⟩) =
      mid'.map Landmark.sign := by
    rw [ht]
    exact hsigns
  refine ⟨_, hrun, (hin.within.trans hw wf).trans hout.within wf, hout.sound, ?_, ?_, ?_, ?_⟩
  · refine (List.Sublist.refl front).append (List.Sublist.cons_cons α ?_)
    exact ((List.Sublist.refl back).append hout.sublist).trans (List.sublist_append_right mid _)
  · refine hframed d₂.contentOf _ ?_ hout.framed
    rw [hsigns']
    exact hin.framed.congr fun t ht => (hsame₂ t ht).trans (hsame₁ t ht)
  · rw [stored_cons]
    refine ⟨⟨fun n hn => hout.within.apart hw.grows.wellFormed (hapart n hn), ?_⟩,
      hstored₁.within hout.within hw.grows.wellFormed, hout.stored⟩
    rw [ht]
    exact hsound
  · simp only [Forest.map, hin.numbers_eq, hout.numbers_eq]

/-- The blocks of an anchored outline are framed after their contents have been taken out. -/
theorem extractAll_spec {stop : Option Landmark} {P : Forest Part} {B : Forest Block.Placed}
    {ls : List Landmark} (h : Anchored stop P B ls) {u w : List Landmark}
    (wf : d.WellFormed) (hs : Sound mute (labels (d.treeAt root)))
    (hU : landmarks (d.treeAt root) = u ++ (ls ++ (stop.toList ++ w))) :
    ∃ T ls' d', Extracts d d' root mute (stop.elim .level fun _ => .passages) P B T ls ls' ∧
      landmarks (d'.treeAt root) = u ++ (ls' ++ (stop.toList ++ w)) := by
  induction h generalizing d u w with
  | nil =>
    exact ⟨nil, [], d, ⟨rfl, .refl wf, hs, .refl _, .nil, fun t ht => by simp [toList] at ht, rfl⟩, hU⟩
  | @text x content P B ls hx _ ih =>
    obtain ⟨T, ls', d', he, hU'⟩ := ih (u := u ++ [x]) (w := w) wf hs (by simpa using hU)
    refine ⟨T, x :: ls', d', ⟨he.run, he.within, he.sound, he.sublist.cons_cons x, ?_, he.stored,
      he.numbers_eq⟩, by simpa using hU'⟩
    rw [List.map_cons, hx]
    exact .text he.framed
  | @value x m P B ls hx hk _ ih =>
    obtain ⟨T, ls', d', he, hU'⟩ := ih (u := u ++ [x]) (w := w) wf hs (by simpa using hU)
    refine ⟨T, x :: ls', d', ⟨he.run, he.within, he.sound, he.sublist.cons_cons x, ?_, he.stored,
      he.numbers_eq⟩, by simpa using hU'⟩
    rw [List.map_cons, hx.sign_eq, hk]
    exact .value hk he.framed
  | @keyword x α m n P B ls hx hk hα hpath hne _ ih =>
    have hb := bounded_of_path_eq hpath hne
    have hin : Extracts d d root mute .level nil nil nil [] [] :=
      ⟨rfl, .refl wf, hs, .refl _, .nil, fun t ht => by simp [toList] at ht, rfl⟩
    have hU₁ : landmarks (d.treeAt root) = u ++ α :: ([] ++ x :: (ls ++ w)) := by
      simpa using hU
    obtain ⟨hw, hU₂, hs₂, -⟩ := extract_spec wf hs hU₁ hb
    obtain ⟨T, ls', d', he, hU'⟩ := ih (u := u ++ [α, x]) (w := w) hw.grows.wellFormed hs₂
      (by simpa using hU₂)
    obtain ⟨T', he'⟩ := extracts_cons .level
      (P := cons (.keyword m.directive) nil P)
      (p := ⟨n, ⟨.inlineKeyword, m, m⟩, α.node, x.node⟩) [] [x] wf hin hU₁ rfl
      hb he (by
        intro content ns _ hP
        simp only [List.map_cons, List.nil_append, hα, hx.sign_eq, hk, List.singleton_append]
        exact .keyword (t := ⟨n, ⟨.inlineKeyword, m, m⟩, ns⟩) rfl (.mark (by decide) hP))
    exact ⟨T', _, d', he', by simpa using hU'⟩
  | @block s e α start stop n last PS P BS B mid ls hsh heh h₁ h₂ h₃ hα hb _ _ ihm ih =>
    obtain ⟨TS, mid', d₁, hin, hU₁⟩ := ihm (u := u ++ [s, α]) (w := ls ++ w) wf hs
      (by simpa using hU)
    have hU₁' : landmarks (d₁.treeAt root) = (u ++ [s]) ++ α :: (mid' ++ e :: (ls ++ w)) := by
      simpa using hU₁
    obtain ⟨hw, hU₂, hs₂, -⟩ := extract_spec hin.within.grows.wellFormed hin.sound hU₁'
      (hb.sublist hin.sublist)
    obtain ⟨T, ls', d', he, hU'⟩ := ih (u := u ++ [s, α, e]) (w := w) hw.grows.wellFormed
      hs₂ (by simpa using hU₂)
    obtain ⟨T', he'⟩ := extracts_cons .level
      (P := cons (.block start.directive) PS P)
      (p := ⟨n, ⟨start.directive.kind, start, stop⟩, α.node, last⟩) [s] [e] wf
      hin hU₁' rfl hb he (by
        intro content ns hPS hP
        simp only [List.map_cons, hα, hsh.sign_eq, heh.sign_eq, List.singleton_append]
        exact .mark (ne_placeholder_of_isBlockStart h₁)
          (.block (t := ⟨n, ⟨start.directive.kind, start, stop⟩, ns⟩) rfl h₁ h₂ hPS (.mark h₃ hP)))
    exact ⟨T', _, d', he', by simpa using hU'⟩
  | @last kind e α start stop n last P B ls hα hb _ ih =>
    obtain ⟨T, ls', d₁, hin, hU₁⟩ := ih (u := u ++ [α]) (w := e :: w) wf hs
      (by simpa using hU)
    have hU₁' : landmarks (d₁.treeAt root) = u ++ α :: (ls' ++ e :: w) := by
      simpa using hU₁
    obtain ⟨hw, hU₂, hs₂, -⟩ := extract_spec hin.within.grows.wellFormed hin.sound hU₁'
      (hb.sublist hin.sublist)
    have he : Extracts _ _ root mute .level nil nil nil [] [] :=
      ⟨rfl, .refl hw.grows.wellFormed, hs₂, .refl _, .nil, fun t ht => by simp [toList] at ht, rfl⟩
    obtain ⟨T', he'⟩ := extracts_cons .passages
      (P := tree (.passage kind) P) (p := ⟨n, ⟨kind, start, stop⟩, α.node, last⟩) [] [] wf hin hU₁' rfl hb he (by
        intro content ns hP _
        simp only [List.map_cons, List.map_nil, List.nil_append, hα]
        exact .last hP)
    simp only [List.nil_append, List.append_nil] at he'
    exact ⟨T', _, _, he', by simpa using hU₂⟩
  | @more kind e x α start next n last P PS B BS ls rest hα hb hx hk _ _ ih ihr =>
    obtain ⟨T, ls', d₁, hin, hU₁⟩ := ih (u := u ++ [α]) (w := x :: (rest ++ e :: w)) wf hs
      (by simpa using hU)
    have hU₁' : landmarks (d₁.treeAt root) = u ++ α :: (ls' ++ x :: (rest ++ e :: w)) := by
      simpa using hU₁
    obtain ⟨hw, hU₂, hs₂, -⟩ := extract_spec hin.within.grows.wellFormed hin.sound hU₁'
      (hb.sublist hin.sublist)
    obtain ⟨TS, rest', d', he, hU'⟩ := ihr (u := u ++ [α, x]) (w := w)
      hw.grows.wellFormed hs₂ (by simpa using hU₂)
    obtain ⟨T', he'⟩ := extracts_cons .passages
      (P := cons (.passage kind) P PS) (p := ⟨n, ⟨kind, start, next⟩, α.node, last⟩) [] [x] wf hin hU₁' rfl hb he (by
        intro content ns hP hPS
        simp only [List.map_cons, List.nil_append, hα, hx.sign_eq, List.singleton_append]
        exact .more hP (.mark hk hPS))
    exact ⟨T', _, d', he', by simpa using hU'⟩

end WordTemplate
