import Sidecar.Generation
import Sidecar.Proofs.Agreement
import Sidecar.Proofs.Growth

/-! Canonical roots. However a directory is spelled, with dots, slashes or links, its canonical root
is the one path to it that is free of all these. The bound on paths is met by each place on the way,
since a root is made canonical by looking each of them up. -/

namespace Sidecar

namespace FileTree

/-- A path leads to a place, links followed, whatever the length of the path. -/
structure ResolvesTo (t : FileTree) (p : Path) (loc : Location) : Prop where
  nul_notMem : '\x00' ∉ p.text.toList
  text_ne : p.text ≠ ""
  isDirectory_start : t.get? (t.start p) = some .directory
  leads : t.Leads .target maxLinks (t.start p) p.segments loc

/-- A path leads to a place, and no path that is looked up for it is too long. -/
structure Reaches (t : FileTree) (p : Path) (loc : Location) : Prop extends t.ResolvesTo p loc where
  lookups_short : ∀ text ∈ t.lookups maxLinks (t.start p) p.segments,
    text.utf8ByteSize < maxPathBytes
  short : (pathOf loc).utf8ByteSize < maxPathBytes

section

variable {t : FileTree} {p : Path} {loc : Location}

theorem walkPath_eq_ok_iff_resolvesTo : t.walkPath .target p = .ok loc ↔ t.ResolvesTo p loc := by
  rw [walkPath_eq_ok_iff]
  constructor
  · rintro ⟨hnul, htext, hstart, hleads⟩
    exact ⟨hnul, htext, hstart, hleads⟩
  · rintro ⟨hnul, htext, hstart, hleads⟩
    exact ⟨hnul, htext, hstart, hleads⟩

theorem not_dots_of_mem_segments_pathOf (hdir : t.get? loc = some .directory) :
    ∀ s ∈ (⟨pathOf loc⟩ : Path).segments, s ≠ "." ∧ s ≠ ".." := by
  by_cases hloc : loc = []
  · subst hloc
    decide
  · have hname : ∀ n ∈ loc, IsEntryName n := fun n hn => isEntryName_of_mem hdir hn
    rw [segments_pathOf hloc fun n hn => (hname n hn).2.2.2.1]
    intro s hs
    cases List.mem_cons.mp hs with
    | inl h => exact h ▸ by decide
    | inr h =>
      obtain ⟨_, hdot, hup, _⟩ := hname s (List.mem_reverse.mp h)
      exact ⟨hdot, hup⟩

/-- What is looked up behind some directories is looked up on the whole way. -/
theorem mem_lookups_append {links : Nat} {xs ys : List String} {place : Location}
    (hdir : t.get? ((Path.plain xs).reverse ++ place) = some .directory) (hup : ".." ∉ xs)
    {text : String} (h : text ∈ t.lookups links ((Path.plain xs).reverse ++ place) ys) :
    text ∈ t.lookups links place (xs ++ ys) := by
  induction xs generalizing place with
  | nil => exact h
  | cons s rest ih =>
    rw [List.mem_cons, not_or] at hup
    by_cases hvoid : s = "" ∨ s = "."
    · rw [Path.plain_cons_void rest hvoid] at hdir h
      rw [List.cons_append, lookups_void hvoid]
      exact ih hdir hup.2 h
    · rw [suffix_plain_cons place hvoid] at hdir h
      have hs : t.get? (s :: place) = some .directory :=
        get?_of_suffix hdir (List.suffix_append _ _)
      have hname : IsName s := ⟨hvoid, Ne.symm hup.1, (isEntryName_of_get? hs).2.2.2.2.2⟩
      rw [List.cons_append, lookups_directory hname hs]
      exact List.mem_cons_of_mem _ (ih hdir hup.2 h)

end

end FileTree

open FileTree

section

variable {t : FileTree} {r root : Path} {loc : Location}

theorem canonicalRoot_eq_ok_iff_reaches : canonicalRoot t r = .ok root ↔
    ∃ loc, t.Reaches r loc ∧ t.get? loc = some .directory ∧ root = ⟨pathOf loc⟩ := by
  rw [canonicalRoot_eq_ok_iff, realPath_eq_ok_iff]
  constructor
  · rintro ⟨⟨loc, hwalk, rfl, hlookups⟩, other, hpath, hdir, hshort⟩
    obtain ⟨e, he, _⟩ := exists_get?_of_walkPath hwalk
    have hloc : loc = other :=
      (spells_pathOf_of_get? he).unique (hpath ▸ spells_pathOf_of_get? hdir)
    subst hloc
    exact ⟨loc, ⟨walkPath_eq_ok_iff_resolvesTo.mp hwalk, hlookups, hshort⟩, hdir, rfl⟩
  · rintro ⟨loc, ⟨hresolves, hlookups, hshort⟩, hdir, rfl⟩
    exact ⟨⟨loc, walkPath_eq_ok_iff_resolvesTo.mpr hresolves, rfl, hlookups⟩, loc, rfl, hdir,
      hshort⟩

theorem canonicalRoot_eq_error_iff {e : Failure} : canonicalRoot t r = .error e ↔
    e = .invalidRoot r ∧ ¬∃ root, canonicalRoot t r = .ok root := by
  have hcases : (∃ root, canonicalRoot t r = .ok root) ∨
      canonicalRoot t r = .error (.invalidRoot r) := by
    unfold canonicalRoot
    split
    · split
      · exact .inl ⟨_, rfl⟩
      · exact .inr rfl
    · exact .inr rfl
  obtain ⟨root, hok⟩ | herror := hcases
  · simp [hok]
  · simp [herror, eq_comm]

/-- A run depends on its root by the canonical root alone. -/
theorem run_congr_root {r₁ r₂ : Path} (hr₁ : canonicalRoot t r₁ = .ok root)
    (hr₂ : canonicalRoot t r₂ = .ok root) (options : RunOptions) :
    run { options with root := r₁ } t = run { options with root := r₂ } t := by
  unfold run
  rw [hr₁, hr₂]
  rfl

end

/-- Spellings of a root that lead to one directory, none of them by a path that is too long, have
one canonical root and give one run. It leads to that directory itself, by an absolute path without
dots and links that is its own canonical root; and there is none only where no directory is reached.
-/
theorem canonicalRoot_laws (t : FileTree) :
    (∀ r₁ r₂ loc, t.Reaches r₁ loc → t.Reaches r₂ loc → t.get? loc = some .directory →
      canonicalRoot t r₁ = canonicalRoot t r₂ ∧
      ∀ options : RunOptions,
        run { options with root := r₁ } t = run { options with root := r₂ } t) ∧
    (∀ r root, canonicalRoot t r = .ok root → ∃ loc, t.Reaches r loc ∧
      t.get? loc = some .directory ∧ root = ⟨pathOf loc⟩ ∧ root.Spells loc ∧
      root.isAbsolute = true ∧ (∀ s ∈ root.segments, s ≠ "." ∧ s ≠ "..") ∧ t.LinkFreeAlong loc ∧
      canonicalRoot t root = .ok root) ∧
    ∀ r e, canonicalRoot t r = .error e ↔ e = .invalidRoot r ∧
      ¬∃ loc, t.Reaches r loc ∧ t.get? loc = some .directory := by
  refine ⟨fun r₁ r₂ loc h₁ h₂ hdir => ?_, fun r root h => ?_, fun r e => ?_⟩
  · have hr₁ := canonicalRoot_eq_ok_iff_reaches.mpr ⟨loc, h₁, hdir, rfl⟩
    have hr₂ := canonicalRoot_eq_ok_iff_reaches.mpr ⟨loc, h₂, hdir, rfl⟩
    exact ⟨hr₁.trans hr₂.symm, run_congr_root hr₁ hr₂⟩
  · obtain ⟨loc, hreaches, hdir, rfl⟩ := canonicalRoot_eq_ok_iff_reaches.mp h
    have hspells := spells_pathOf_of_get? hdir
    have hroot : IsRoot t ⟨pathOf loc⟩ loc := ⟨rfl, hdir, hreaches.short⟩
    exact ⟨loc, hreaches, hdir, rfl, hspells, hspells.isAbsolute,
      not_dots_of_mem_segments_pathOf hdir, linkFreeAlong_of_get? hdir (by simp),
      hroot.canonicalRoot_eq⟩
  · rw [canonicalRoot_eq_error_iff]
    refine and_congr_right fun _ => not_congr ⟨?_, ?_⟩
    · rintro ⟨root, h⟩
      obtain ⟨loc, hreaches, hdir, _⟩ := canonicalRoot_eq_ok_iff_reaches.mp h
      exact ⟨loc, hreaches, hdir⟩
    · rintro ⟨loc, hreaches, hdir⟩
      exact ⟨_, canonicalRoot_eq_ok_iff_reaches.mpr ⟨loc, hreaches, hdir, rfl⟩⟩

/-! A link to a directory that has another directory in it. -/

section

variable {depth : Nat}

theorem get?_nested_eq_none {loc : Location} (h : ∀ n, loc ≠ List.replicate n "d") (depth : Nat) :
    (nested depth).val.get? loc = none := by
  induction depth with
  | zero =>
    cases loc with
    | nil => exact absurd rfl (h 0)
    | cons => rfl
  | succ depth ih =>
    have hne : loc ≠ "d" :: List.replicate depth "d" := List.replicate_succ ▸ h (depth + 1)
    rw [nested_succ, get?_put_of_ne _ hne, ih]

theorem link_ne_replicate (n : Nat) : ["k"] ≠ List.replicate n "d" := by
  cases n with
  | zero => decide
  | succ n =>
    rw [List.replicate_succ]
    intro h
    exact absurd (List.cons.inj h).1 (by decide)

theorem accepts_shortcut (depth : Nat) : (nested depth).val.Accepts ["k"] := by
  refine ⟨rfl, by decide, ?_⟩
  rw [get?_nested_eq_none link_ne_replicate]
  simp

/-- Nested directories with a link to the last but one of them. -/
def shortcut (depth : Nat) : FileTree :=
  (nested (depth + 2)).val.put ["k"] (.link (pathOf (List.replicate (depth + 1) "d")))
    (accepts_shortcut (depth + 2))

theorem get?_shortcut_link : (shortcut depth).get? ["k"] =
    some (.link (pathOf (List.replicate (depth + 1) "d"))) :=
  get?_put_self ..

theorem get?_shortcut_directory :
    (shortcut depth).get? (List.replicate (depth + 2) "d") = some .directory := by
  rw [shortcut, get?_put_of_ne _ (link_ne_replicate _).symm]
  exact (nested (depth + 2)).property.2.1

theorem get?_shortcut_directory_above :
    (shortcut depth).get? (List.replicate (depth + 1) "d") = some .directory :=
  get?_parent get?_shortcut_directory

theorem isName_k : IsName "k" :=
  ⟨by decide, by decide, by decide⟩

theorem isName_d : IsName "d" :=
  ⟨by decide, by decide, by decide⟩

theorem segments_shortcut :
    (⟨pathOf (List.replicate (depth + 1) "d")⟩ : Path).segments =
      "" :: List.replicate (depth + 1) "d" := by
  rw [segments_pathOf (by simp) (by simp), List.reverse_replicate]

theorem plain_replicate (n : Nat) :
    (Path.plain ("" :: List.replicate n "d")).reverse ++ [] = List.replicate n "d" := by
  have hall : Path.plain (List.replicate n "d") = List.replicate n "d" :=
    List.filter_eq_self.mpr fun s hs => List.eq_of_mem_replicate hs ▸ by decide
  rw [Path.plain_cons_void _ (.inl rfl), hall, List.reverse_replicate, List.append_nil]

variable {links : Nat} {rest : List String} {loc : Location} {text : String}

/-- Behind the link a path goes on from the directory that it leads to. -/
theorem leads_shortcut
    (h : (shortcut depth).Leads .target links (List.replicate (depth + 1) "d") rest loc) :
    (shortcut depth).Leads .target (links + 1) [] ("" :: "k" :: rest) loc := by
  refine .void (.inl rfl)
    (.follow isName_k (mayFollow_target _) (by simp) get?_shortcut_link ?_)
  rw [segments_shortcut, startOf, ite_self, ← walk_eq_ok_iff, walk_append, plain_replicate]
  · exact walk_eq_ok_iff.mpr h
  · rw [plain_replicate]
    exact get?_shortcut_directory_above
  · simp
  · exact .inl (by decide)

theorem mem_lookups_shortcut
    (h : text ∈ (shortcut depth).lookups links (List.replicate (depth + 1) "d") rest) :
    text ∈ (shortcut depth).lookups (links + 1) [] ("" :: "k" :: rest) := by
  rw [lookups_void (.inl rfl), lookups_link isName_k get?_shortcut_link, segments_shortcut, startOf,
    ite_self]
  refine List.mem_cons_of_mem _ (mem_lookups_append ?_ ?_ ?_)
  · rw [plain_replicate]
    exact get?_shortcut_directory_above
  · simp
  · rwa [plain_replicate]

theorem start_of_segments {t : FileTree} {p : Path} {s : String}
    (hs : p.segments = "" :: s :: rest) : t.start p = [] := by
  rw [start, Path.isAbsolute_of_segments (by simp) hs, if_pos rfl]

theorem resolvesTo_shortcut {p : Path} (hs : p.segments = "" :: "k" :: rest)
    (hnul : '\x00' ∉ p.text.toList)
    (h : (shortcut depth).Leads .target 39 (List.replicate (depth + 1) "d") rest loc) :
    (shortcut depth).ResolvesTo p loc := by
  refine ⟨hnul, ?_, ?_, ?_⟩
  · intro htext
    have hvoid : Text.piecesOf '/' "" = [""] := by decide
    rw [Path.segments, htext, hvoid] at hs
    simp at hs
  · rw [start_of_segments hs]
    rfl
  · rw [start_of_segments hs, hs]
    exact leads_shortcut h

theorem resolvesTo_shortcut_link :
    (shortcut depth).ResolvesTo ⟨"/k"⟩ (List.replicate (depth + 1) "d") :=
  resolvesTo_shortcut (show Path.segments ⟨"/k"⟩ = ["", "k"] by decide) (by decide) .here

theorem resolvesTo_shortcut_down :
    (shortcut depth).ResolvesTo ⟨"/k/d"⟩ (List.replicate (depth + 2) "d") :=
  resolvesTo_shortcut (show Path.segments ⟨"/k/d"⟩ = ["", "k", "d"] by decide) (by decide)
    (.down isName_d (mayFollow_target _) get?_shortcut_directory .here)

theorem resolvesTo_shortcut_back :
    (shortcut depth).ResolvesTo ⟨"/k/d/.."⟩ (List.replicate (depth + 1) "d") :=
  resolvesTo_shortcut (show Path.segments ⟨"/k/d/.."⟩ = ["", "k", "d", ".."] by decide) (by decide)
    (.down isName_d (mayFollow_target _) get?_shortcut_directory (.up .here))

theorem canonicalRoot_shortcut_link (hshort : 2 * (depth + 1) < maxPathBytes) :
    canonicalRoot (shortcut depth) ⟨"/k"⟩ = .ok ⟨pathOf (List.replicate (depth + 1) "d")⟩ := by
  have hsegments : Path.segments ⟨"/k"⟩ = ["", "k"] := by decide
  have hsize := utf8ByteSize_nested depth
  refine canonicalRoot_eq_ok_iff_reaches.mpr ⟨_, ⟨resolvesTo_shortcut_link, fun text htext => ?_,
    hsize ▸ hshort⟩, get?_shortcut_directory_above, rfl⟩
  rw [start_of_segments hsegments, hsegments, lookups_void (.inl rfl), maxLinks,
    lookups_link isName_k get?_shortcut_link, segments_shortcut, startOf, ite_self, List.append_nil,
    lookups_void (.inl rfl)] at htext
  cases List.mem_cons.mp htext with
  | inl h => exact h ▸ by decide
  | inr h =>
    have hle := utf8ByteSize_le_of_mem_lookups (by simpa using get?_shortcut_directory_above) h
    rw [List.reverse_replicate, List.append_nil, hsize] at hle
    exact Nat.lt_of_le_of_lt hle hshort

/-- A path that goes down once more comes to a directory that is too deep to be looked up. -/
theorem canonicalRoot_shortcut_long (hlong : maxPathBytes ≤ 2 * (depth + 2)) {p : Path}
    (hs : p.segments = "" :: "k" :: "d" :: rest) :
    canonicalRoot (shortcut depth) p = .error (.invalidRoot p) := by
  refine canonicalRoot_eq_error_iff.mpr ⟨rfl, ?_⟩
  rintro ⟨root, h⟩
  obtain ⟨loc, hreaches, _⟩ := canonicalRoot_eq_ok_iff_reaches.mp h
  have hshort := hreaches.lookups_short
  rw [start_of_segments hs, hs] at hshort
  have hdir : (shortcut depth).get? ("d" :: List.replicate (depth + 1) "d") = some .directory :=
    get?_shortcut_directory
  have hlast := hshort _ (mem_lookups_shortcut
    (by rw [lookups_directory isName_d hdir]; exact List.mem_cons_self))
  have hsize := utf8ByteSize_nested (depth + 1)
  rw [List.replicate_succ] at hsize
  split at hlast
  · rw [String.utf8ByteSize_append, hsize] at hlast
    omega
  · rw [hsize] at hlast
    omega

end

/-- Through the link and back up, and with dots and more slashes than needed. -/
theorem canonicalRoot_laws_shortcut :
    (shortcut 0).Reaches ⟨"/k/d/.."⟩ ["d"] ∧ (shortcut 0).Reaches ⟨"/./d//"⟩ ["d"] ∧
    (shortcut 0).get? ["d"] = some .directory ∧
    canonicalRoot (shortcut 0) ⟨"/k/d/.."⟩ = canonicalRoot (shortcut 0) ⟨"/./d//"⟩ ∧
    (∀ options : RunOptions, run { options with root := ⟨"/k/d/.."⟩ } (shortcut 0) =
      run { options with root := ⟨"/./d//"⟩ } (shortcut 0)) ∧
    canonicalRoot (shortcut 0) ⟨"/d"⟩ = .ok ⟨"/d"⟩ := by
  have hdir : (shortcut 0).get? ["d"] = some .directory := get?_shortcut_directory_above
  have hback : (shortcut 0).lookups maxLinks [] ["", "k", "d", ".."] = ["/k", "/d", "/d/d/"] := by
    have hbelow : (shortcut 0).get? ["d", "d"] = some .directory := get?_shortcut_directory
    have hstart : startOf (pathOf (List.replicate 1 "d")) [] = [] := by decide
    rw [lookups_void (.inl rfl), maxLinks, lookups_link isName_k get?_shortcut_link,
      segments_shortcut, hstart, List.replicate_one, List.cons_append, lookups_void (.inl rfl),
      List.singleton_append, lookups_directory isName_d hdir, lookups_directory isName_d hbelow,
      lookups_up, lookups]
    decide
  have hvoid : (shortcut 0).lookups maxLinks [] ["", ".", "d", "", ""] = ["/d/"] := by
    rw [lookups_void (.inl rfl), lookups_void (.inr rfl), lookups_directory isName_d hdir,
      lookups_void (.inl rfl), lookups_void (.inl rfl), lookups]
    decide
  have hlink : (shortcut 0).Reaches ⟨"/k/d/.."⟩ ["d"] := by
    have hsegments : Path.segments ⟨"/k/d/.."⟩ = ["", "k", "d", ".."] := by decide
    refine ⟨resolvesTo_shortcut_back, ?_, by decide⟩
    rw [start_of_segments hsegments, hsegments, hback]
    decide
  have hplain : (shortcut 0).Reaches ⟨"/./d//"⟩ ["d"] := by
    have hsegments : Path.segments ⟨"/./d//"⟩ = ["", ".", "d", "", ""] := by decide
    refine ⟨⟨by decide, by decide, rfl, ?_⟩, ?_, by decide⟩
    · rw [start_of_segments hsegments, hsegments]
      exact .void (.inl rfl) (.void (.inr rfl) (.down isName_d (mayFollow_target _) hdir
        (.void (.inl rfl) (.void (.inl rfl) .here))))
    · rw [start_of_segments hsegments, hsegments, hvoid]
      decide
  obtain ⟨hroots, hcanonical, _⟩ := canonicalRoot_laws (shortcut 0)
  obtain ⟨heq, hruns⟩ := hroots _ _ _ hlink hplain hdir
  have hroot : IsRoot (shortcut 0) ⟨"/d"⟩ ["d"] := ⟨by decide, hdir, by decide⟩
  obtain ⟨_, _, _, _, _, _, _, _, hfixed⟩ := hcanonical _ _ hroot.canonicalRoot_eq
  exact ⟨hlink, hplain, hdir, heq, hruns, hfixed⟩

/-- Without the bound on what is looked up, spellings of one directory can differ: a path that goes
through a directory whose own path has 4096 bytes has no canonical root, nor has the path of that
directory. -/
theorem not_canonicalRoot_laws_shortcut :
    (shortcut 2046).ResolvesTo ⟨"/k"⟩ (List.replicate 2047 "d") ∧
    (shortcut 2046).ResolvesTo ⟨"/k/d/.."⟩ (List.replicate 2047 "d") ∧
    (shortcut 2046).get? (List.replicate 2047 "d") = some .directory ∧
    canonicalRoot (shortcut 2046) ⟨"/k"⟩ ≠ canonicalRoot (shortcut 2046) ⟨"/k/d/.."⟩ ∧
    (shortcut 2046).ResolvesTo ⟨"/k/d"⟩ (List.replicate 2048 "d") ∧
    (shortcut 2046).get? (List.replicate 2048 "d") = some .directory ∧
    canonicalRoot (shortcut 2046) ⟨"/k/d"⟩ = .error (.invalidRoot ⟨"/k/d"⟩) := by
  have hsegmentsDown : Path.segments ⟨"/k/d"⟩ = ["", "k", "d"] := by decide
  have hsegmentsBack : Path.segments ⟨"/k/d/.."⟩ = ["", "k", "d", ".."] := by decide
  have hback : canonicalRoot (shortcut 2046) ⟨"/k/d/.."⟩ = .error (.invalidRoot ⟨"/k/d/.."⟩) :=
    canonicalRoot_shortcut_long (by decide) hsegmentsBack
  refine ⟨resolvesTo_shortcut_link, resolvesTo_shortcut_back, get?_shortcut_directory_above, ?_,
    resolvesTo_shortcut_down, get?_shortcut_directory,
    canonicalRoot_shortcut_long (by decide) hsegmentsDown⟩
  rw [canonicalRoot_shortcut_link (by decide), hback]
  nofun

end Sidecar
