import Sidecar.Proofs.Bytes

/-! Paths relative to a root, for every root and path that is text. A relative path names the way
down from the root, and behind the root it leads to the path again. The sidecar of a file lies on
the same way, so that the name in a report is the name of the file that was written. -/

namespace Sidecar

/-- No slash stands at an end of the text, and its segments name something. The empty text has no
segments: it is the way from the root to itself. -/
structure IsClean (relPath : String) : Prop where
  head : relPath.toList.head? ≠ some '/'
  last : relPath.toList.getLast? ≠ some '/'
  segment : relPath ≠ "" → ∀ s ∈ Text.piecesOf '/' relPath, s ≠ "" ∧ s ≠ "." ∧ s ≠ ".."

theorem isClean_intercalate {names : List String}
    (h : ∀ n ∈ names, n ≠ "" ∧ n ≠ "." ∧ n ≠ ".." ∧ '/' ∉ n.toList) :
    IsClean ("/".intercalate names) := by
  have hsegment : "/".intercalate names ≠ "" →
      ∀ s ∈ Text.piecesOf '/' ("/".intercalate names), s ≠ "" ∧ s ≠ "." ∧ s ≠ ".." := by
    intro hne s hs
    have hnames : names ≠ [] := by
      rintro rfl
      exact hne rfl
    rw [Text.piecesOf_intercalate (fun n hn => (h n hn).2.2.2) hnames] at hs
    have ⟨hempty, hdot, hup, _⟩ := h s hs
    exact ⟨hempty, hdot, hup⟩
  have hinner {before after : List Char} (hend : before = [] ∨ after = []) :
      ("/".intercalate names).toList ≠ before ++ '/' :: after := by
    intro htext
    have hne : "/".intercalate names ≠ "" := by
      intro hempty
      simp [hempty] at htext
    exact (hsegment hne "" (Text.empty_mem_piecesOf htext hend)).1 rfl
  constructor
  · intro hhead
    have ⟨after, hafter⟩ := List.head?_eq_some_iff.mp hhead
    exact hinner (.inl rfl) hafter
  · intro hlast
    have ⟨before, hbefore⟩ := List.getLast?_eq_some_iff.mp hlast
    exact hinner (.inr rfl) hbefore
  · exact hsegment

section Relative

variable {root path : Path} {names : List String}

theorem namesOf?_eq_some_iff {ps : List Path.Part} (h : .here ∉ ps) :
    namesOf? ps = some names ↔ ps = names.map .name := by
  induction ps generalizing names with
  | nil => simp [namesOf?, eq_comm]
  | cons p rest ih =>
    rw [List.mem_cons, not_or] at h
    cases p with
    | name n =>
      simp only [namesOf?, Option.map_eq_some_iff, ih h.2]
      cases names with
      | nil => simp
      | cons m ms =>
        simp only [List.cons.injEq, List.map_cons, Path.Part.name.injEq]
        constructor
        · rintro ⟨ns, hns, rfl, rfl⟩
          exact ⟨rfl, hns⟩
        · rintro ⟨rfl, hms⟩
          exact ⟨ms, hms, rfl, rfl⟩
    | here => exact absurd rfl h.1
    | root | parent => cases names <;> simp [namesOf?]

/-- A `.` in front does not count. -/
theorem namesOf?_eq_some_iff_of_tail {ps : List Path.Part} (h : .here ∉ ps.tail) :
    namesOf? ps = some names ↔ ps = names.map .name ∨ ps = .here :: names.map .name := by
  by_cases hhead : .here ∈ ps
  · cases ps with
    | nil => contradiction
    | cons p rest =>
      rw [List.tail_cons] at h
      obtain rfl : p = .here := ((List.mem_cons.mp hhead).resolve_right h).symm
      have hne : Path.Part.here :: rest ≠ names.map .name := by
        intro heq
        rw [heq] at hhead
        simp at hhead
      rw [namesOf?, namesOf?_eq_some_iff h, or_iff_right hne, List.cons.injEq, and_iff_right rfl]
  · have hne : ps ≠ .here :: names.map .name := by
      rintro rfl
      exact hhead List.mem_cons_self
    rw [namesOf?_eq_some_iff hhead, or_iff_left hne]

theorem partsBelow_eq_some_iff {below : List Path.Part} :
    root.partsBelow path = some below ↔ path.parts = root.parts ++ below := by
  unfold Path.partsBelow
  constructor
  · intro h
    split at h
    next hprefix =>
      have ⟨rest, hrest⟩ := List.isPrefixOf_iff_prefix.mp hprefix
      rw [← hrest, List.drop_left] at h
      rw [← hrest, Option.some.inj h]
    next => contradiction
  · intro h
    rw [h, if_pos (List.isPrefixOf_iff_prefix.mpr (List.prefix_append _ _)), List.drop_left]

/-- The path has the names behind the parts of the root. Under the empty root, which has no parts, a
`.` may stand before them. -/
def LeadsDown (root path : Path) (names : List String) : Prop :=
  path.parts = root.parts ++ names.map .name ∨
    root.text = "" ∧ path.parts = .here :: names.map .name

theorem LeadsDown.mem_parts (h : LeadsDown root path names) :
    ∀ n ∈ names, .name n ∈ path.parts := by
  intro n hn
  have hpart : Path.Part.name n ∈ names.map .name := List.mem_map_of_mem hn
  cases h with
  | inl hparts =>
    rw [hparts]
    exact List.mem_append_right _ hpart
  | inr hparts =>
    rw [hparts.2]
    exact List.mem_cons_of_mem _ hpart

theorem LeadsDown.name (h : LeadsDown root path names) :
    ∀ n ∈ names, n ≠ "" ∧ n ≠ "." ∧ n ≠ ".." ∧ '/' ∉ n.toList :=
  fun n hn => Path.name_of_mem_parts (h.mem_parts n hn)

theorem LeadsDown.parts_eq (h : LeadsDown root path names) (hroot : root.text ≠ "") :
    path.parts = root.parts ++ names.map .name :=
  h.resolve_right fun hempty => hroot hempty.1

theorem bind_namesOf?_eq_some_iff :
    (root.partsBelow path).bind namesOf? = some names ↔ LeadsDown root path names := by
  simp only [Option.bind_eq_some_iff, partsBelow_eq_some_iff]
  have htail := path.here_not_mem_tail_parts
  by_cases hroot : root.text = ""
  · have hparts : root.parts = [] := by simp [Path.parts, hroot]
    simp only [LeadsDown, hroot, hparts, List.nil_append, exists_eq_left', true_and]
    exact namesOf?_eq_some_iff_of_tail htail
  · -- A `.` only counts in front of a path, and there the root has its own part.
    have hbelow (below : List Path.Part) (hparts : path.parts = root.parts ++ below) :
        .here ∉ below := by
      rw [hparts, List.tail_append_of_ne_nil (Path.parts_ne_nil hroot)] at htail
      exact fun hmem => htail (List.mem_append_right _ hmem)
    constructor
    · rintro ⟨below, hparts, hnames⟩
      rw [namesOf?_eq_some_iff (hbelow below hparts)] at hnames
      exact .inl (hnames ▸ hparts)
    · intro h
      have hparts := h.parts_eq hroot
      exact ⟨_, hparts, (namesOf?_eq_some_iff (hbelow _ hparts)).mpr rfl⟩

theorem relativePath_eq_ok_iff_leadsDown {relPath : String} :
    relativePath root path = .ok relPath ↔
      ∃ names, LeadsDown root path names ∧ relPath = "/".intercalate names := by
  rw [relativePath_eq]
  constructor
  · intro h
    split at h
    next names hnames =>
      exact ⟨names, bind_namesOf?_eq_some_iff.mp hnames, (Except.ok.inj h).symm⟩
    next => simp at h
  · rintro ⟨names, hnames, rfl⟩
    rw [bind_namesOf?_eq_some_iff.mpr hnames]

theorem eq_outsideRoot_of_relativePath {failure : Failure}
    (h : relativePath root path = .error failure) : failure = .outsideRoot path root := by
  rw [relativePath_eq] at h
  split at h
  · simp at h
  · exact (Except.error.inj h).symm

/-- Names behind a root are found there when they are read as a path. -/
theorem leadsDown_join (hroot : root.text ≠ "")
    (h : ∀ n ∈ names, n ≠ "" ∧ n ≠ "." ∧ n ≠ ".." ∧ '/' ∉ n.toList) :
    LeadsDown root (root.join ("/".intercalate names)) names := by
  have hparts : (Text.piecesOf '/' ("/".intercalate names)).filterMap Path.Part.ofInner? =
      names.map .name := by
    by_cases hnil : names = []
    · rw [hnil]
      decide
    · rw [Text.piecesOf_intercalate (fun n hn => (h n hn).2.2.2) hnil,
        Path.filterMap_ofInner?_eq_iff]
      constructor
      · exact fun hup => (h ".." hup).2.2.1 rfl
      · rw [Path.plain, List.filter_eq_self]
        intro n hn
        obtain ⟨hempty, hdot, _⟩ := h n hn
        simp [hempty, hdot]
  left
  rw [Path.parts_join hroot (isClean_intercalate h).head, hparts]

/-- Where names lead down to, no other path has them, and the path has no other names. -/
theorem LeadsDown.same_iff {other : Path} {otherNames : List String}
    (h : LeadsDown root path names) (hother : LeadsDown root other otherNames)
    (hroot : root.text ≠ "") : path.Same other ↔ names = otherNames := by
  rw [Path.Same, h.parts_eq hroot, hother.parts_eq hroot, List.append_right_inj,
    List.map_inj_right fun _ _ => Path.Part.name.inj]

theorem LeadsDown.join_same (h : LeadsDown root path names) (hroot : root.text ≠ "") :
    (root.join ("/".intercalate names)).Same path :=
  ((leadsDown_join hroot h.name).same_iff h hroot).mpr rfl

section

variable {other : Path} {relPath : String}

theorem join_same_of_relativePath (hroot : root.text ≠ "")
    (h : relativePath root path = .ok relPath) : (root.join relPath).Same path := by
  have ⟨names, hnames, htext⟩ := relativePath_eq_ok_iff_leadsDown.mp h
  rw [htext]
  exact hnames.join_same hroot

/-- Paths under one root that are named alike are spellings of one path: the one behind the root. -/
theorem same_of_relativePath (hroot : root.text ≠ "") (hpath : relativePath root path = .ok relPath)
    (hother : relativePath root other = .ok relPath) : path.Same other :=
  (join_same_of_relativePath hroot hpath).symm.trans (join_same_of_relativePath hroot hother)

end

example : relativePath ⟨"./r/"⟩ ⟨"./r//a/./b.csv/."⟩ = .ok "a/b.csv" := by
  cbv

end Relative

section Sidecar

variable {root path : Path} {above : List Path.Part} {name : String}

/-- A name with the suffix of sidecars is again a name. -/
theorem name_append_sidecarSuffix (hslash : '/' ∉ name.toList) :
    name ++ sidecarSuffix ≠ "" ∧ name ++ sidecarSuffix ≠ "." ∧ name ++ sidecarSuffix ≠ ".." ∧
      '/' ∉ (name ++ sidecarSuffix).toList := by
  have hlen : 14 ≤ (name ++ sidecarSuffix).length := by
    have : sidecarSuffix.length = 14 := by decide
    rw [String.length_append]
    omega
  have hne {s : String} (hs : s.length < 14) : name ++ sidecarSuffix ≠ s := by
    rintro rfl
    omega
  refine ⟨hne (by decide), hne (by decide), hne (by decide), ?_⟩
  rw [String.toList_append, List.mem_append, not_or]
  exact ⟨hslash, by decide⟩

/-- The sidecar of a file stands beside it. -/
theorem parts_sidecarPath (h : path.parts = above ++ [.name name]) :
    (sidecarPath path).parts = above ++ [.name (name ++ sidecarSuffix)] := by
  have hname : Path.Part.name name ∈ path.parts := by simp [h]
  rw [sidecarPath, Path.fileName?_eq_some_iff.mpr ⟨above, h⟩, Option.getD_some]
  apply Path.parts_withFileName h
  exact name_append_sidecarSuffix (Path.name_of_mem_parts hname).2.2.2

theorem isSidecar_iff_of_parts (h : path.parts = above ++ [.name name]) :
    isSidecar path = true ↔ sidecarSuffix.toList <:+ name.toList := by
  rw [isSidecar, Path.fileName?_eq_some_iff.mpr ⟨above, h⟩, List.isSuffixOf_iff_suffix]

theorem same_sidecarPath_iff {other : Path} {otherAbove : List Path.Part} {otherName : String}
    (h : path.parts = above ++ [.name name])
    (hother : other.parts = otherAbove ++ [.name otherName]) :
    (sidecarPath path).Same (sidecarPath other) ↔ path.Same other := by
  rw [Path.Same, Path.Same, parts_sidecarPath h, parts_sidecarPath hother, h, hother]
  simp [String.append_left_inj]

theorem LeadsDown.parts_concat {before : List String}
    (h : LeadsDown root path (before ++ [name])) :
    ∃ above, path.parts = above ++ [.name name] := by
  cases h with
  | inl hparts => exact ⟨root.parts ++ before.map .name, by simp [hparts]⟩
  | inr hparts => exact ⟨.here :: before.map .name, by simp [hparts.2]⟩

theorem LeadsDown.sidecarPath {before : List String}
    (h : LeadsDown root path (before ++ [name])) :
    LeadsDown root (sidecarPath path) (before ++ [name ++ sidecarSuffix]) := by
  simp only [LeadsDown, List.map_append, List.map_cons, List.map_nil, ← List.append_assoc,
    ← List.cons_append] at h ⊢
  cases h with
  | inl hparts => exact .inl (parts_sidecarPath hparts)
  | inr hparts => exact .inr ⟨hparts.1, parts_sidecarPath hparts.2⟩

/-- A relative path that is not empty ends in a name. -/
theorem exists_leadsDown_concat {relPath : String} (h : relativePath root path = .ok relPath)
    (hne : relPath ≠ "") : ∃ before name, LeadsDown root path (before ++ [name]) ∧
      relPath = "/".intercalate (before ++ [name]) := by
  have ⟨names, hnames, htext⟩ := relativePath_eq_ok_iff_leadsDown.mp h
  rcases List.eq_nil_or_concat names with rfl | ⟨before, name, rfl⟩
  · exact absurd htext hne
  · rw [List.concat_eq_append] at hnames htext
    exact ⟨before, name, hnames, htext⟩

/-- The sidecar that a report names is the one that is written, and no other file has it. -/
theorem relativePath_sidecarPath {relPath : String} (h : relativePath root path = .ok relPath)
    (hne : relPath ≠ "") :
    relativePath root (sidecarPath path) = .ok (relPath ++ sidecarSuffix) ∧
      isSidecar (sidecarPath path) = true ∧
      ∀ otherRoot other otherRelPath, relativePath otherRoot other = .ok otherRelPath →
        otherRelPath ≠ "" → ((sidecarPath path).Same (sidecarPath other) ↔ path.Same other) := by
  have ⟨before, name, hnames, htext⟩ := exists_leadsDown_concat h hne
  have ⟨above, hparts⟩ := hnames.parts_concat
  refine ⟨?_, ?_, ?_⟩
  · rw [relativePath_eq_ok_iff_leadsDown, htext, ← Text.intercalate_concat_append]
    exact ⟨_, hnames.sidecarPath, rfl⟩
  · rw [isSidecar_iff_of_parts (parts_sidecarPath hparts), String.toList_append]
    exact List.suffix_append _ _
  · intro otherRoot other otherRelPath hother hotherNe
    have ⟨_, _, hotherNames, _⟩ := exists_leadsDown_concat hother hotherNe
    have ⟨_, hotherParts⟩ := hotherNames.parts_concat
    exact same_sidecarPath_iff hparts hotherParts

theorem relativePath_sidecarPath_spelled :
    relativePath ⟨"."⟩ (sidecarPath ⟨"./a//b.csv/."⟩) = .ok ("a/b.csv" ++ sidecarSuffix) ∧
      isSidecar (sidecarPath ⟨"./a//b.csv/."⟩) = true ∧
      ∀ otherRoot other otherRelPath, relativePath otherRoot other = .ok otherRelPath →
        otherRelPath ≠ "" → ((sidecarPath ⟨"./a//b.csv/."⟩).Same (sidecarPath other) ↔
          (⟨"./a//b.csv/."⟩ : Path).Same other) :=
  relativePath_sidecarPath (by cbv) (by decide)

end Sidecar

end Sidecar
