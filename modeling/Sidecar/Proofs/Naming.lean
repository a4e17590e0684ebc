import Sidecar.Proofs.Relative

/-! The names that follow from a path: the path of a location, the path relative to a root and the
path of a sidecar. Each is said on the location that the path spells. -/

namespace Sidecar

namespace Path

theorem spells_of_segments {p : Path} {rest : List String} {loc : Location} (hne : rest ≠ [])
    (hs : p.segments = "" :: rest) (hup : ".." ∉ rest) (hplain : plain rest = loc.reverse) :
    p.Spells loc := by
  refine spells_iff.mpr ⟨isAbsolute_of_segments hne hs, ?_, ?_⟩
  · rw [hs, List.mem_cons, not_or]
    exact ⟨by decide, hup⟩
  · rw [hs, plain_cons_void rest (.inl rfl), hplain]

theorem Spells.parts_eq {p : Path} {name : String} {loc : Location} (h : p.Spells (name :: loc)) :
    p.parts = (.root :: loc.reverse.map .name) ++ [.name name] := by
  rw [show p.parts = _ from h, List.reverse_cons, List.map_append, List.cons_append]
  rfl

end Path

namespace FileTree

theorem pathOf_cons (name : String) {loc : Location} (h : loc ≠ []) :
    pathOf (name :: loc) = pathOf loc ++ "/" ++ name := by
  cases loc with
  | nil => contradiction
  | cons n above =>
    simp only [pathOf, List.reverse_cons, List.map_append, List.map_cons, List.map_nil,
      String.join_append, String.join_cons, String.join_nil, String.append_empty,
      String.append_assoc]

theorem pathOf_singleton (name : String) : pathOf [name] = "/" ++ name := by
  simp [pathOf]

theorem pathOf_eq_intercalate {loc : Location} (h : loc ≠ []) :
    pathOf loc = "/".intercalate ("" :: loc.reverse) := by
  induction loc with
  | nil => contradiction
  | cons n above ih =>
    have hsplit : "" :: (n :: above).reverse = ("" :: above.reverse) ++ [n] := by simp
    rw [hsplit, String.intercalate_append_of_ne_nil (by simp) (by simp),
      String.intercalate_singleton]
    cases above with
    | nil => simp [pathOf_singleton]
    | cons => rw [pathOf_cons n (by simp), ih (by simp)]

theorem segments_pathOf {loc : Location} (h : loc ≠ []) (hslash : ∀ n ∈ loc, '/' ∉ n.toList) :
    (⟨pathOf loc⟩ : Path).segments = "" :: loc.reverse := by
  rw [Path.segments, pathOf_eq_intercalate h, Text.piecesOf_intercalate _ (by simp)]
  simpa using hslash

theorem utf8ByteSize_pathOf_le (below above : Location) :
    (pathOf above).utf8ByteSize ≤ (pathOf (below ++ above)).utf8ByteSize := by
  induction below with
  | nil => exact Nat.le_refl _
  | cons n rest ih =>
    refine Nat.le_trans ih ?_
    rw [List.cons_append]
    cases hloc : rest ++ above with
    | nil =>
      rw [pathOf_singleton, String.utf8ByteSize_append]
      exact Nat.le_add_right _ _
    | cons m more =>
      rw [pathOf_cons n (by simp), String.utf8ByteSize_append, String.utf8ByteSize_append]
      omega

theorem toList_pathOf {loc : Location} (h : loc ≠ []) :
    (pathOf loc).toList = loc.reverse.flatMap fun n => '/' :: n.toList := by
  cases loc with
  | nil => contradiction
  | cons n above =>
    simp only [pathOf, String.toList_join, List.flatMap_map, String.toList_append]
    rfl

theorem getLast?_pathOf {name : String} {above : Location} (h : name ≠ "") :
    (pathOf (name :: above)).toList.getLast? = name.toList.getLast? := by
  have hlast (before : List Char) : (before ++ name.toList).getLast? = name.toList.getLast? := by
    rw [List.getLast?_append, Option.or_of_isSome (by simpa using h)]
  cases above with
  | nil => rw [pathOf_singleton, String.toList_append, hlast]
  | cons n rest => rw [pathOf_cons name (by simp), String.toList_append, hlast]

/-- Below a name that does not end in a slash, the path of an entry has one slash more. -/
theorem child_pathOf_cons {n : String} (hne : n ≠ "") (hslash : '/' ∉ n.toList) (above : Location)
    (name : String) :
    (⟨pathOf (n :: above)⟩ : Path).child name = ⟨pathOf (name :: n :: above)⟩ := by
  have hlast : (pathOf (n :: above)).toList.getLast? ≠ some '/' := by
    rw [getLast?_pathOf hne]
    exact fun h => hslash (List.mem_of_getLast? h)
  have htext : pathOf (n :: above) ≠ "" := by
    intro h
    have hlen : n.toList.getLast? = none := by rw [← getLast?_pathOf hne, h]; rfl
    exact hne (by simpa using hlen)
  rw [Path.child, if_neg (by simp [htext, hlast]), pathOf_cons name (by simp)]

/-- Going down from the path of a location gives the path of the entry below it. -/
theorem child_pathOf {loc : Location} (hloc : ∀ n ∈ loc, n ≠ "" ∧ '/' ∉ n.toList)
    (name : String) : (⟨pathOf loc⟩ : Path).child name = ⟨pathOf (name :: loc)⟩ := by
  cases loc with
  | nil =>
    rw [pathOf_singleton]
    rfl
  | cons n above =>
    have ⟨hne, hslash⟩ := hloc n (by simp)
    exact child_pathOf_cons hne hslash above name

theorem spells_pathOf {loc : Location}
    (hloc : ∀ n ∈ loc, n ≠ "" ∧ n ≠ "." ∧ n ≠ ".." ∧ '/' ∉ n.toList) :
    (⟨pathOf loc⟩ : Path).Spells loc := by
  induction loc with
  | nil => exact show Path.parts ⟨"/"⟩ = [.root] by decide
  | cons n above ih =>
    have habove : ∀ m ∈ above, m ≠ "" ∧ m ≠ "." ∧ m ≠ ".." ∧ '/' ∉ m.toList :=
      fun m hm => hloc m (List.mem_cons_of_mem _ hm)
    rw [← child_pathOf (fun m hm => ⟨(habove m hm).1, (habove m hm).2.2.2⟩) n]
    exact (ih habove).child (hloc n (by simp))

end FileTree

/-- Names lead down from a root to the path that has them behind the root's own parts. -/
theorem spells_append_iff {root p : Path} {above : Location} (hroot : root.Spells above)
    {names : List String} :
    p.Spells (names.reverse ++ above) ↔ p.parts = root.parts ++ names.map .name := by
  rw [Path.Spells, show root.parts = _ from hroot]
  simp

/-- The names that lead to a path below another can be told from their path. -/
theorem Path.Spells.name_below {p : Path} {above : Location} {names : List String}
    (h : p.Spells (names.reverse ++ above)) :
    ∀ n ∈ names, n ≠ "" ∧ '/' ∉ n.toList := by
  intro n hn
  have ⟨h1, _, _, h4⟩ := h.name (List.mem_append_left _ (List.mem_reverse.mpr hn))
  exact ⟨h1, h4⟩

theorem leadsDown_iff {root p : Path} {above : Location} (hroot : root.Spells above)
    {names : List String} : LeadsDown root p names ↔ p.Spells (names.reverse ++ above) := by
  rw [spells_append_iff hroot, LeadsDown, or_iff_left fun h => hroot.text_ne h.1]

/-- A path has a relative path under a root exactly when it leads down from it by names alone. -/
theorem relativePath_eq_ok_iff {root : Path} {above : Location} (hroot : root.Spells above)
    (p : Path) (relPath : String) : relativePath root p = .ok relPath ↔
      ∃ names, p.Spells (names.reverse ++ above) ∧ relPath = "/".intercalate names := by
  simp only [relativePath_eq_ok_iff_leadsDown, leadsDown_iff hroot]

theorem spells_sidecarPath {p : Path} {name : String} {loc : Location}
    (h : p.Spells (name :: loc)) : (sidecarPath p).Spells ((name ++ sidecarSuffix) :: loc) := by
  rw [Path.Spells, parts_sidecarPath h.parts_eq]
  simp

theorem isSidecar_iff {p : Path} {name : String} {loc : Location} (h : p.Spells (name :: loc)) :
    isSidecar p = true ↔ sidecarSuffix.toList <:+ name.toList :=
  isSidecar_iff_of_parts h.parts_eq

end Sidecar
