import Sidecar.Proofs.ByteOrder
import Sidecar.Proofs.Lookup

/-! Paths that go on behind the path of a directory. How a path is written behind it, void segments
included, is its trail; what the operations on paths make of a path they make of its trail, wherever
the directory is. -/

namespace Sidecar

open FileTree

namespace Path

/-- The path that has the segments of a trail behind the path of a location. Like a location, a
trail lists its segments from the last to the first. -/
def behind (above : Location) (trail : List String) : Path :=
  ⟨pathOf (trail ++ above)⟩

/-- Segments of a path that does not go up. -/
structure IsTrail (trail : List String) : Prop where
  not_up : ".." ∉ trail
  slashFree : ∀ s ∈ trail, '/' ∉ s.toList

/-- A trail and a name behind it. A slash at the end of the path leaves an empty segment, which the
name takes the place of. -/
def extended (name : String) : List String → List String
  | "" :: trail => name :: trail
  | trail => name :: trail

/-- A trail without the void segments that its path ends in. -/
def dropVoid (trail : List String) : List String :=
  trail.dropWhile fun s => s = "" ∨ s = "."

/-- The trail of the sidecar of a file. -/
def sidecarTrail (trail : List String) : List String :=
  match dropVoid trail with
  | [] => []
  | name :: before => (name ++ sidecarSuffix) :: dropVoid before

section

variable {above : Location} {trail more : List String} {name : String}

theorem isTrail_nil : IsTrail [] :=
  ⟨by simp, by simp⟩

theorem IsTrail.cons (h : IsTrail trail) (hup : name ≠ "..") (hslash : '/' ∉ name.toList) :
    IsTrail (name :: trail) := by
  refine ⟨?_, ?_⟩
  · rw [List.mem_cons, not_or]
    exact ⟨Ne.symm hup, h.not_up⟩
  · intro s hs
    cases List.mem_cons.mp hs with
    | inl heq => exact heq ▸ hslash
    | inr hs => exact h.slashFree s hs

theorem IsTrail.of_subset (h : IsTrail trail) (hsub : more ⊆ trail) : IsTrail more :=
  ⟨fun hup => h.not_up (hsub hup), fun s hs => h.slashFree s (hsub hs)⟩

theorem IsTrail.extended (h : IsTrail trail) (hup : name ≠ "..") (hslash : '/' ∉ name.toList) :
    IsTrail (extended name trail) := by
  unfold Path.extended
  split
  · exact (h.of_subset (List.subset_cons_self _ _)).cons hup hslash
  · exact h.cons hup hslash

theorem extended_of_ne {s : String} (h : s ≠ "") (name : String) (trail : List String) :
    extended name (s :: trail) = name :: s :: trail := by
  unfold extended
  split
  next heq => exact absurd (List.cons.inj heq).1 h
  next => rfl

theorem plain_extended (hne : name ≠ "") (hhere : name ≠ ".") (trail : List String) :
    plain (extended name trail) = name :: plain trail := by
  have hname : ¬(name = "" ∨ name = ".") := not_or.mpr ⟨hne, hhere⟩
  unfold extended
  split
  · rw [plain_cons_name _ hname, plain_cons_void _ (.inl rfl)]
  · rw [plain_cons_name _ hname]

theorem child_behind (habove : ∀ n ∈ above, IsEntryName n) (htrail : IsTrail trail)
    (name : String) : (behind above trail).child name = behind above (extended name trail) := by
  cases trail with
  | nil => exact child_pathOf (fun n hn => ⟨(habove n hn).1, (habove n hn).2.2.2.1⟩) name
  | cons s rest =>
    by_cases hs : s = ""
    · subst hs
      show Path.child ⟨pathOf ("" :: (rest ++ above))⟩ name = ⟨pathOf (name :: (rest ++ above))⟩
      cases rest ++ above with
      | nil =>
        rw [pathOf_singleton, pathOf_singleton]
        rfl
      | cons m outer =>
        rw [Path.child, pathOf_cons "" (by simp), pathOf_cons name (by simp), String.append_empty,
          if_pos (.inr (by simp))]
    · rw [extended_of_ne hs]
      exact child_pathOf_cons hs (htrail.slashFree s List.mem_cons_self) (rest ++ above) name

theorem segments_behind (habove : ∀ n ∈ above, IsEntryName n) (htrail : IsTrail trail)
    (hne : trail ++ above ≠ []) :
    (behind above trail).segments = "" :: (above.reverse ++ trail.reverse) := by
  rw [← List.reverse_append]
  refine segments_pathOf hne fun n hn => ?_
  exact (List.mem_append.mp hn).elim (htrail.slashFree n) fun hn => (habove n hn).2.2.2.1

theorem plain_entryNames (habove : ∀ n ∈ above, IsEntryName n) : plain above = above :=
  List.filter_eq_self.mpr fun n hn => decide_eq_true ⟨(habove n hn).1, (habove n hn).2.1⟩

theorem plain_reverse (segments : List String) :
    plain segments.reverse = (plain segments).reverse :=
  List.filter_reverse ..

/-- A path spells the location that the names of its trail lead to. -/
theorem spells_behind (habove : ∀ n ∈ above, IsEntryName n) (htrail : IsTrail trail) :
    (behind above trail).Spells (plain trail ++ above) := by
  by_cases hnil : trail ++ above = []
  · obtain ⟨rfl, rfl⟩ := List.append_eq_nil_iff.mp hnil
    exact show Path.parts ⟨"/"⟩ = [.root] by decide
  · refine spells_of_segments (by simpa [and_comm] using hnil) (segments_behind habove htrail hnil)
      ?_ ?_
    · rw [← List.reverse_append, List.mem_reverse, List.mem_append, not_or]
      exact ⟨htrail.not_up, fun hup => (habove _ hup).2.2.1 rfl⟩
    · rw [← List.reverse_append, plain_reverse, plain_append, plain_entryNames habove]

/-- Which of two paths comes first is said by their trails. -/
theorem le_behind (habove : ∀ n ∈ above, IsEntryName n) (htrail : IsTrail trail)
    (hmore : IsTrail more) : (behind above trail).le (behind above more) =
      partsLe ((plain trail).reverse.map .name) ((plain more).reverse.map .name) := by
  have hparts {t : List String} (ht : IsTrail t) : (behind above t).parts =
      .root :: above.reverse.map .name ++ (plain t).reverse.map .name := by
    rw [show (behind above t).parts = _ from spells_behind habove ht, List.reverse_append,
      List.map_append, List.cons_append]
  rw [Path.le, hparts htrail, hparts hmore, partsLe_append_left]

theorem relativePath_behind (habove : ∀ n ∈ above, IsEntryName n) (htrail : IsTrail trail)
    {root : Path} (hroot : root.Spells above) :
    relativePath root (behind above trail) = .ok ("/".intercalate (plain trail).reverse) := by
  refine (relativePath_eq_ok_iff hroot _ _).mpr ⟨(plain trail).reverse, ?_, rfl⟩
  rw [List.reverse_reverse]
  exact spells_behind habove htrail

/-- But for slashes, a path holds the characters of its names. -/
theorem mem_pathOf_iff {loc : Location} {c : Char} (hc : c ≠ '/') :
    c ∈ (pathOf loc).toList ↔ ∃ n ∈ loc, c ∈ n.toList := by
  by_cases hne : loc = []
  · subst hne
    simp [pathOf, hc]
  · rw [toList_pathOf hne, List.mem_flatMap]
    simp [hc]

theorem nul_mem_behind_iff (habove : ∀ n ∈ above, IsEntryName n) :
    '\x00' ∈ (behind above trail).text.toList ↔ ∃ s ∈ trail, '\x00' ∈ s.toList := by
  rw [behind, mem_pathOf_iff (by decide)]
  refine exists_congr fun s => and_congr_left fun hs => ?_
  rw [List.mem_append, or_iff_left]
  exact fun hmem => (habove s hmem).2.2.2.2.1 hs

/-! The last name of a trail. -/

theorem dropVoid_subset (trail : List String) : dropVoid trail ⊆ trail :=
  List.dropWhile_subset _

theorem head_dropVoid (h : dropVoid trail = name :: more) : name ≠ "" ∧ name ≠ "." := by
  have := List.head?_dropWhile_not (fun s : String => decide (s = "" ∨ s = ".")) trail
  rw [show trail.dropWhile _ = _ from h] at this
  simpa using this

theorem dropVoid_cons_void {s : String} (h : s = "" ∨ s = ".") (trail : List String) :
    dropVoid (s :: trail) = dropVoid trail :=
  List.dropWhile_cons_of_pos (p := fun s : String => decide (s = "" ∨ s = ".")) (decide_eq_true h)

theorem dropVoid_cons_name {s : String} (h : ¬(s = "" ∨ s = ".")) (trail : List String) :
    dropVoid (s :: trail) = s :: trail :=
  List.dropWhile_cons_of_neg (by simpa using h)

theorem plain_dropVoid (trail : List String) : plain (dropVoid trail) = plain trail := by
  induction trail with
  | nil => rfl
  | cons s rest ih =>
    by_cases hs : s = "" ∨ s = "."
    · rw [dropVoid_cons_void hs, plain_cons_void rest hs, ih]
    · rw [dropVoid_cons_name hs]

theorem dropVoid_append (habove : ∀ n ∈ above, IsEntryName n) (trail : List String) :
    dropVoid (trail ++ above) = dropVoid trail ++ above := by
  induction trail with
  | nil =>
    cases above with
    | nil => rfl
    | cons n outer =>
      have hn := habove n List.mem_cons_self
      exact dropVoid_cons_name (not_or.mpr ⟨hn.1, hn.2.1⟩) outer
  | cons s rest ih =>
    by_cases hs : s = "" ∨ s = "."
    · rw [List.cons_append, dropVoid_cons_void hs, dropVoid_cons_void hs, ih]
    · rw [List.cons_append, dropVoid_cons_name hs, dropVoid_cons_name hs, List.cons_append]

theorem trimEnd_reverse (trail : List String) :
    trimEnd trail.reverse = (dropVoid trail).reverse := by
  rw [trimEnd, List.reverse_reverse]
  rfl

/-- A trail with a name ends in one but for void segments. -/
theorem exists_dropVoid (h : plain trail ≠ []) :
    ∃ name before, dropVoid trail = name :: before ∧ plain trail = name :: plain before := by
  cases hdrop : dropVoid trail with
  | nil =>
    rw [← plain_dropVoid, hdrop] at h
    exact absurd rfl h
  | cons name before =>
    have hname := not_or.mpr (head_dropVoid hdrop)
    exact ⟨name, before, rfl, by rw [← plain_dropVoid, hdrop, plain_cons_name before hname]⟩

theorem fileName?_behind (habove : ∀ n ∈ above, IsEntryName n) (htrail : IsTrail trail)
    (h : plain trail ≠ []) : (behind above trail).fileName? = (plain trail).head? := by
  obtain ⟨name, before, _, hplain⟩ := exists_dropVoid h
  have hspells := spells_behind habove htrail
  rw [hplain] at hspells ⊢
  exact hspells.fileName?

theorem directory_behind (habove : ∀ n ∈ above, IsEntryName n) (htrail : IsTrail trail)
    {before : List String} (h : dropVoid trail = name :: before) :
    (behind above trail).directory = behind above (dropVoid before) := by
  have hne : trail ++ above ≠ [] := by
    rintro hnil
    rw [(List.append_eq_nil_iff.mp hnil).1] at h
    contradiction
  have hlast : trimEnd (above.reverse ++ trail.reverse) = (before ++ above).reverse ++ [name] := by
    rw [← List.reverse_append, trimEnd_reverse, dropVoid_append habove, h, List.cons_append,
      List.reverse_cons]
  rw [directory_eq (segments_behind habove htrail hne) hlast, trimEnd_reverse,
    dropVoid_append habove, behind]
  by_cases hloc : dropVoid before ++ above = []
  · rw [hloc]
    rfl
  · rw [if_neg fun hroot => hloc (List.reverse_eq_nil_iff.mp hroot.2), pathOf_eq_intercalate hloc,
      ← Text.joinedBy_eq_intercalate]

theorem isTrail_sidecarTrail (h : IsTrail trail) : IsTrail (sidecarTrail trail) := by
  unfold sidecarTrail
  split
  · exact isTrail_nil
  next name before hdrop =>
    have hkept : IsTrail (name :: before) := h.of_subset (hdrop ▸ dropVoid_subset trail)
    have hname := name_append_sidecarSuffix (hkept.slashFree name List.mem_cons_self)
    exact ((hkept.of_subset (List.subset_cons_self _ _)).of_subset
      (dropVoid_subset before)).cons hname.2.2.1 hname.2.2.2

theorem exists_name_sidecarTrail (h : plain trail ≠ []) : ∃ s ∈ sidecarTrail trail, s ≠ "" := by
  obtain ⟨name, before, hdrop, _⟩ := exists_dropVoid h
  refine ⟨name ++ sidecarSuffix, ?_, by simp [sidecarSuffix]⟩
  simp [sidecarTrail, hdrop]

/-- A sidecar stands beside its file, wherever that is. -/
theorem sidecarPath_behind (habove : ∀ n ∈ above, IsEntryName n) (htrail : IsTrail trail)
    (h : plain trail ≠ []) :
    sidecarPath (behind above trail) = behind above (sidecarTrail trail) := by
  obtain ⟨name, before, hdrop, hplain⟩ := exists_dropVoid h
  have hfile : (behind above trail).fileName? = some name := by
    rw [fileName?_behind habove htrail h, hplain, List.head?_cons]
  have hkept : IsTrail (name :: before) := htrail.of_subset (hdrop ▸ dropVoid_subset trail)
  have hname := name_append_sidecarSuffix (hkept.slashFree name List.mem_cons_self)
  have hjoin : (name ++ sidecarSuffix).toList.head? ≠ some '/' :=
    fun hh => hname.2.2.2 (List.mem_of_head? hh)
  have hdir : IsTrail (dropVoid before) :=
    (hkept.of_subset (List.subset_cons_self _ _)).of_subset (dropVoid_subset before)
  have hextended : extended (name ++ sidecarSuffix) (dropVoid before) = sidecarTrail trail := by
    simp only [sidecarTrail, hdrop]
    cases hbefore : dropVoid before with
    | nil => rfl
    | cons s rest => exact extended_of_ne (head_dropVoid hbefore).1 _ rest
  rw [sidecarPath, hfile, Option.getD_some]
  simp only [Path.withFileName, hfile]
  rw [directory_behind habove htrail hdrop, Path.join, if_neg hjoin, child_behind habove hdir,
    hextended]

end

end Path

end Sidecar
