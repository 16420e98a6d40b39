import WordTemplate.Host.FileTree

/-!
# Names and paths

A path that is made of names is read back as these names, and in a tree of files it leads to the entry that the
names lead to, if there is a directory at every step.

* `Path.names_join`, `Path.names_ofNames`: the names of a path.
* `FileTree.files_join`: what is found at a name in a directory.
-/

namespace WordTemplate

namespace Text

theorem pieces_append (sep : Char) (s t : List Char) : pieces sep (s ++ sep :: t) = pieces sep s ++ pieces sep t := by
  induction s with
  | nil => simp [pieces]
  | cons c s ih =>
    by_cases hc : c = sep
    · simp [pieces, hc, ih]
    · obtain ⟨p, ps, hs⟩ := List.exists_cons_of_ne_nil (pieces_ne_nil sep s)
      simp [pieces, hc, ih, hs]

theorem pieces_of_not_mem {sep : Char} {s : List Char} (h : sep ∉ s) : pieces sep s = [s] := by
  induction s with
  | nil => rfl
  | cons c s ih =>
    rw [List.mem_cons, not_or] at h
    rw [pieces, if_neg (Ne.symm h.1), ih h.2]

end Text

namespace Host

/-- Whether a text can be the name of a file or directory. -/
structure IsName (name : String) : Prop where
  ne_empty : name ≠ ""
  not_mem : '/' ∉ name.toList
  /-- The two names that stand for the directory itself and for the one above it. -/
  ne_dots : name ≠ "." ∧ name ≠ ".."

namespace Path

theorem names_append (p q : Path) : names (p ++ "/" ++ q) = names p ++ names q := by
  have htext : (p ++ "/" ++ q).toList = p.toList ++ '/' :: q.toList := by simp
  rw [names, htext, Text.pieces_append, List.filter_append, List.map_append]
  rfl

@[simp] theorem names_empty : names "" = [] := rfl

theorem names_of_isName {name : String} (h : IsName name) : names name = [name] := by
  rw [names, Text.pieces_of_not_mem h.not_mem]
  simp [h.ne_empty]

/-- The names of a path seen from another one come behind the names of that. -/
theorem names_join {base p : Path} (h : isAbsolute p = false) : names (join base p) = names base ++ names p := by
  rw [join, h, Bool.false_or]
  split
  · next hempty => simp [String.isEmpty_iff.mp hempty]
  · split
    · next hslash =>
      obtain ⟨front, hfront⟩ := List.isSuffixOf_iff_suffix.mp hslash
      obtain rfl : base = String.ofList front ++ "/" := by
        rw [← String.toList_inj, ← hfront]
        simp
      have hbase := names_append (String.ofList front) ""
      rw [names_append, ← String.append_empty (s := String.ofList front ++ "/"), hbase]
      simp
    · exact names_append base p

theorem isAbsolute_of_isName {name : String} (h : IsName name) : isAbsolute name = false := by
  rw [isAbsolute, Bool.eq_false_iff, ne_eq, List.isPrefixOf_iff_prefix]
  exact fun hslash => h.not_mem (hslash.mem List.mem_cons_self)

theorem exists_join_eq (way : List String) {name : String} (h : IsName name) :
    ∃ front, (join (ofNames way) name).toList = '/' :: (front ++ name.toList) := by
  have hne : (ofNames way).isEmpty = false := by
    rw [Bool.eq_false_iff, ne_eq, String.isEmpty_iff, ← String.toList_inj]
    simp [ofNames]
  rw [join, isAbsolute_of_isName h, hne]
  simp only [Bool.or_self, Bool.false_eq_true, if_false]
  split
  · exact ⟨("/".intercalate way).toList, by simp [ofNames]⟩
  · exact ⟨("/".intercalate way).toList ++ ['/'], by simp [ofNames]⟩

theorem names_ofNames {way : List String} (h : ∀ name ∈ way, IsName name) : names (ofNames way) = way := by
  have hslash : ofNames way = "" ++ "/" ++ "/".intercalate way := by rw [ofNames, String.empty_append]
  rw [hslash, names_append, names_empty, List.nil_append]
  clear hslash
  induction way with
  | nil => rfl
  | cons name way ih =>
    have hname := names_of_isName (h name List.mem_cons_self)
    have hway := ih fun n hn => h n (List.mem_cons_of_mem _ hn)
    cases way with
    | nil => exact hname
    | cons next way => rw [String.intercalate_cons_cons, names_append, hname, hway, List.singleton_append]

end Path

namespace FileTree

variable {t : FileTree}

/-- Names are followed to where they lead if there is a directory at every step. -/
theorem follow_eq {place way : List String} (hnames : ∀ name ∈ way, IsName name)
    (h : ∀ above name, above ++ [name] <+: way → t.find (place ++ above) = .ok .directory) :
    t.follow place way = .ok (place ++ way) := by
  induction way generalizing place with
  | nil => simp [follow]
  | cons name way ih =>
    have hname := hnames name List.mem_cons_self
    have hplace := h [] name ⟨way, rfl⟩
    rw [List.append_nil] at hplace
    rw [follow, hplace]
    simp only [hname.ne_dots.1, hname.ne_dots.2, if_false]
    rw [ih (fun n hn => hnames n (List.mem_cons_of_mem _ hn)) fun above n habove => ?_, List.append_assoc]
    · rfl
    · rw [List.append_assoc]
      exact h (name :: above) n (by simpa using habove)

/-- What is found at a name in a directory: the entry of that name. -/
theorem files_join (current : List String) {way : List String} {name : String} (hway : ∀ n ∈ way, IsName n)
    (hname : IsName name) (h : ∀ above, above <+: way → t.find above = .ok .directory) :
    t.files current (Path.join (Path.ofNames way) name) = t.find (way ++ [name]) := by
  obtain ⟨front, hfront⟩ := Path.exists_join_eq way hname
  have hnames : Path.names (Path.join (Path.ofNames way) name) = way ++ [name] := by
    rw [Path.names_join (Path.isAbsolute_of_isName hname), Path.names_ofNames hway, Path.names_of_isName hname]
  have hfollow : t.follow [] (way ++ [name]) = .ok (way ++ [name]) := by
    refine follow_eq (fun n hn => ?_) fun above n habove => ?_
    · rcases List.mem_append.mp hn with hn | hn
      · exact hway n hn
      · exact List.mem_singleton.mp hn ▸ hname
    · refine h above (List.prefix_of_prefix_length_le ((List.prefix_append ..).trans habove)
        (List.prefix_append ..) ?_)
      simpa using habove.length_le
  have hslash : ['/'].isSuffixOf (Path.join (Path.ofNames way) name).toList = false := by
    rw [Bool.eq_false_iff, ne_eq, List.isSuffixOf_iff_suffix, hfront]
    rintro ⟨s, hs⟩
    obtain hempty | ⟨init, c, hlast⟩ := List.eq_nil_or_concat name.toList
    · exact hname.ne_empty (String.toList_eq_nil_iff.mp hempty)
    · have hends : s ++ ['/'] = ('/' :: (front ++ init)) ++ [c] := by rw [hs, hlast]; simp
      obtain rfl : '/' = c := by simpa using (List.append_inj' hends rfl).2
      exact hname.not_mem (by simp [hlast])
  have hempty : (Path.join (Path.ofNames way) name).isEmpty = false := by
    rw [Bool.eq_false_iff, ne_eq, String.isEmpty_iff, ← String.toList_inj, hfront]
    simp
  have habsolute : Path.isAbsolute (Path.join (Path.ofNames way) name) = true := by
    rw [Path.isAbsolute, hfront]
    simp
  rw [files, hnames, hempty, habsolute]
  simp only [Bool.false_eq_true, if_false, if_true, hfollow, hslash]
  split
  · next content hfound => exact hfound.symm
  · rfl

end FileTree

end Host

end WordTemplate
