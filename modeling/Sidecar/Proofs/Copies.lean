import Sidecar.Proofs.Persistence
import Sidecar.Proofs.Trails

/-! Copies of a directory. Where two directories hold the same entries and no links, a path behind
the one is looked up, read, listed and written like the path that has the same trail behind the
other. -/

namespace Sidecar

/-- A trail whose path behind a location is short enough to be looked up. -/
structure Path.Fits (above : Location) (trail : List String) : Prop extends IsTrail trail where
  short : (behind above trail).text.utf8ByteSize < FileTree.maxPathBytes

open Sidecar.Path

namespace FileTree

/-- Two directories that hold the same content, without links. -/
structure IsCopy (t : FileTree) (a : Location) (u : FileTree) (b : Location) : Prop where
  isDirectory : t.get? a = some .directory
  get?_eq : ∀ below, u.get? (below ++ b) = t.get? (below ++ a)
  linkFree : t.LinkFreeBelow a

section

variable {t u : FileTree} {a b below : Location} {ending : Ending} {links : Nat}
  {trail : List String} {p : Path}

theorem IsCopy.symm (h : t.IsCopy a u b) : u.IsCopy b t a := by
  refine ⟨(h.get?_eq []).trans h.isDirectory, fun below => (h.get?_eq below).symm, ?_⟩
  rintro _ target ⟨below, rfl⟩
  rw [h.get?_eq]
  exact h.linkFree _ target (List.suffix_append below a)

theorem IsCopy.isEntryName (h : t.IsCopy a u b) : ∀ n ∈ a, IsEntryName n :=
  fun _ hn => isEntryName_of_mem h.isDirectory hn

theorem IsCopy.linkFreeAlong (h : t.IsCopy a u b) (below : Location) :
    t.LinkFreeAlong (below ++ a) :=
  h.linkFree.along h.isDirectory below

/-- A walk that does not leave the directory ends at the same place, or stops at the same
segment. -/
theorem IsCopy.walk_eq (h : t.IsCopy a u b) (ending : Ending) (links : Nat) {segments : List String}
    (hup : ".." ∉ segments) (below : Location) : ∃ r : Except OsError Location,
      t.walk ending links (below ++ a) segments = r.map (· ++ a) ∧
      u.walk ending links (below ++ b) segments = r.map (· ++ b) := by
  induction segments generalizing below with
  | nil => exact ⟨.ok below, by rw [walk]; rfl, by rw [walk]; rfl⟩
  | cons s rest ih =>
    rw [List.mem_cons, not_or] at hup
    by_cases hvoid : s = "" ∨ s = "."
    · rw [walk_cons_void _ _ _ _ _ hvoid, walk_cons_void _ _ _ _ _ hvoid]
      exact ih hup.2 below
    · have hsame : u.get? (s :: (below ++ b)) = t.get? (s :: (below ++ a)) := h.get?_eq (s :: below)
      rw [walk, walk, if_neg hvoid, if_neg hvoid, if_neg (Ne.symm hup.1), if_neg (Ne.symm hup.1),
        hsame]
      split
      · exact ⟨.error .isADirectory, rfl, rfl⟩
      split
      · exact ⟨.error .nameTooLong, rfl, rfl⟩
      cases hg : t.get? (s :: (below ++ a)) with
      | none =>
        by_cases hlast : ending = .newFile ∧ rest = []
        · exact ⟨.ok (s :: below), if_pos hlast, if_pos hlast⟩
        · exact ⟨.error .notFound, if_neg hlast, if_neg hlast⟩
      | some e =>
        cases e with
        | directory => exact ih hup.2 (s :: below)
        | file content =>
          by_cases hlast : rest = []
          · exact ⟨.ok (s :: below), if_pos hlast, if_pos hlast⟩
          · exact ⟨.error .notADirectory, if_neg hlast, if_neg hlast⟩
        | link target =>
          exact absurd hg (h.linkFree _ target (List.suffix_append (s :: below) a))

/-- The walk along a path goes through the directory and then by the trail. -/
theorem walk_behind (hdir : t.get? a = some .directory) (htrail : IsTrail trail)
    (hends : ending ≠ .newFile ∨ ∃ s ∈ trail, s ≠ "") :
    t.walk ending links [] (behind a trail).segments = t.walk ending links a trail.reverse := by
  have habove : ∀ n ∈ a, IsEntryName n := fun n hn => isEntryName_of_mem hdir hn
  by_cases hnil : trail ++ a = []
  · obtain ⟨rfl, rfl⟩ := List.append_eq_nil_iff.mp hnil
    rw [show (behind [] []).segments = ["", ""] by decide, walk_cons_void _ _ _ _ _ (.inl rfl),
      walk_cons_void _ _ _ _ _ (.inl rfl)]
    rfl
  · have hplace : (plain a.reverse).reverse ++ [] = a := by
      rw [plain_reverse, List.reverse_reverse, List.append_nil, plain_entryNames habove]
    have hup : ".." ∉ a.reverse := fun h => (habove _ (List.mem_reverse.mp h)).2.2.1 rfl
    have hends' : ending ≠ .newFile ∨ ∃ s ∈ trail.reverse, s ≠ "" := by simpa using hends
    rw [segments_behind habove htrail hnil, walk_cons_void _ _ _ _ _ (.inl rfl),
      walk_append links (hplace.symm ▸ hdir) hup hends', hplace]

/-- Only a NUL keeps an absolute path that is short enough from being walked. -/
theorem locate_of_short (ha : p.isAbsolute = true) (hlen : p.text.utf8ByteSize < maxPathBytes) :
    t.locate ending p = if '\x00' ∈ p.text.toList then .error .nulInPath
      else t.walk ending maxLinks [] p.segments := by
  have htext : p.text ≠ "" := by
    intro h
    simp [Path.isAbsolute, h] at ha
  rw [locate, if_neg (fun h => Nat.not_le.mpr hlen h.2), walkPath, if_neg htext, if_pos ha]

end

section

variable {t u : FileTree} {a b : Location} {ending : Ending} {trail : List String}

theorem IsCopy.locate_eq (h : t.IsCopy a u b) (ending : Ending) (ha : Fits a trail)
    (hb : Fits b trail) (hends : ending ≠ .newFile ∨ ∃ s ∈ trail, s ≠ "") :
    ∃ r : Except OsError Location,
      t.locate ending (behind a trail) = r.map (· ++ a) ∧
      u.locate ending (behind b trail) = r.map (· ++ b) := by
  rw [locate_of_short (spells_behind h.isEntryName ha.toIsTrail).isAbsolute ha.short,
    locate_of_short (spells_behind h.symm.isEntryName ha.toIsTrail).isAbsolute hb.short,
    walk_behind h.isDirectory ha.toIsTrail hends, walk_behind h.symm.isDirectory ha.toIsTrail hends]
  simp only [nul_mem_behind_iff h.isEntryName, nul_mem_behind_iff h.symm.isEntryName]
  split
  · exact ⟨.error .nulInPath, rfl, rfl⟩
  · exact h.walk_eq ending maxLinks (by simpa using ha.not_up) []

theorem IsCopy.find_eq (h : t.IsCopy a u b) (ha : Fits a trail) (hb : Fits b trail)
    (hends : ending ≠ .newFile) :
    u.find ending (behind b trail) = t.find ending (behind a trail) := by
  obtain ⟨r, ht, hu⟩ := h.locate_eq ending ha hb (.inl hends)
  rw [find, find, ht, hu]
  cases r with
  | error => rfl
  | ok place => simp only [Except.map, bind, Except.bind, h.get?_eq]

theorem IsCopy.isDirectory_eq (h : t.IsCopy a u b) (ha : Fits a trail) (hb : Fits b trail) :
    u.isDirectory (behind b trail) = t.isDirectory (behind a trail) := by
  rw [FileTree.isDirectory, FileTree.isDirectory, h.find_eq ha hb (by simp)]

theorem IsCopy.read_eq (h : t.IsCopy a u b) (ha : Fits a trail) (hb : Fits b trail) :
    u.read (behind b trail) = t.read (behind a trail) := by
  rw [read, read, h.find_eq ha hb (by simp)]

theorem IsCopy.isThere_eq (h : t.IsCopy a u b) (ha : Fits a trail) (hb : Fits b trail) :
    Glob.isThere u (behind b trail) = Glob.isThere t (behind a trail) := by
  rw [Glob.isThere, Glob.isThere, h.find_eq ha hb (by simp), h.find_eq ha hb (by simp)]

theorem IsCopy.entriesIn_eq (h : t.IsCopy a u b) (below : Location) :
    u.entriesIn (below ++ b) = t.entriesIn (below ++ a) := by
  have hall := @filter_entriesIn t u (below ++ a) (below ++ b) (fun _ => true)
    fun name _ => h.get?_eq (name :: below)
  rwa [List.filter_true, List.filter_true] at hall

theorem list_behind (ha : ∀ n ∈ a, IsEntryName n) (hfits : Fits a trail)
    (hdir : t.get? (plain trail ++ a) = some .directory) :
    t.list (behind a trail) = .ok (t.entriesIn (plain trail ++ a)) :=
  list_of_directory (spells_behind ha hfits.toIsTrail) hdir hfits.short

/-! Writing. -/

theorem IsCopy.accepts_iff (h : t.IsCopy a u b) (below : Location) :
    u.Accepts (below ++ b) ↔ t.Accepts (below ++ a) := by
  cases below with
  | nil =>
    refine iff_of_false (fun hu => ?_) fun ht => ?_
    · exact not_directory_of_accepts hu h.symm.isDirectory
    · exact not_directory_of_accepts ht h.isDirectory
  | cons name below =>
    have hparent := h.get?_eq below
    have hplace := h.get?_eq (name :: below)
    simp only [List.cons_append, Accepts] at hplace ⊢
    rw [hparent, hplace]

/-- A file that is put at one place below both directories leaves copies. -/
theorem IsCopy.put (h : t.IsCopy a u b) {below : Location} (content : ByteArray)
    (ht : t.Accepts (below ++ a)) (hu : u.Accepts (below ++ b)) :
    (t.put (below ++ a) (.file content) ht).IsCopy a (u.put (below ++ b) (.file content) hu) b := by
  have hne : a ≠ below ++ a := by
    intro heq
    rw [← heq] at ht
    exact not_directory_of_accepts ht h.isDirectory
  refine ⟨(get?_put_of_ne ht hne).trans h.isDirectory, fun other => ?_, fun loc target hs => ?_⟩
  · by_cases heq : other = below
    · rw [heq, get?_put_self, get?_put_self]
    · rw [get?_put_of_ne ht fun hl => heq (List.append_cancel_right hl),
        get?_put_of_ne hu fun hl => heq (List.append_cancel_right hl), h.get?_eq]
  · by_cases heq : loc = below ++ a
    · rw [heq, get?_put_self]
      simp
    · rw [get?_put_of_ne ht heq]
      exact h.linkFree loc target hs

/-- A file is written below both directories, or refused for the same cause. -/
theorem IsCopy.write_eq (h : t.IsCopy a u b) (ha : Fits a trail) (hb : Fits b trail)
    (hends : ∃ s ∈ trail, s ≠ "") (content : ByteArray) :
    (∃ cause, t.write (behind a trail) content = .error cause ∧
      u.write (behind b trail) content = .error cause) ∨
    ∃ t' u', t.write (behind a trail) content = .ok t' ∧
      u.write (behind b trail) content = .ok u' ∧ t'.IsCopy a u' b := by
  obtain ⟨r, ht, hu⟩ := h.locate_eq .newFile ha hb (.inr hends)
  cases r with
  | error cause =>
    refine .inl ⟨cause, ?_, ?_⟩
    · rw [write, ht]; rfl
    · rw [write, hu]; rfl
  | ok below =>
    by_cases accepts : t.Accepts (below ++ a)
    · have accepts' := (h.accepts_iff below).mpr accepts
      exact .inr ⟨_, _, write_of_locate ht accepts content, write_of_locate hu accepts' content,
        h.put content accepts accepts'⟩
    · have accepts' := mt (h.accepts_iff below).mp accepts
      exact .inl ⟨_, write_of_not_accepts ht accepts content,
        write_of_not_accepts hu accepts' content⟩

end

end FileTree

end Sidecar
