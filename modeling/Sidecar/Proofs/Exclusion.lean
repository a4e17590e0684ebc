import Sidecar.Proofs.Selection

/-! A pattern as a glob and as an exclusion. A glob is walked below the root, where void segments
and lone dots say nothing; an exclusion is matched against relative paths, which have neither. -/

namespace Sidecar

open Glob

variable {t : FileTree} {root q : Path} {above : Location} {p : String} {pattern : Pattern}
  {file : ResolvedFile}

/-- What a glob finds by components that all name something is matched by the exclusion. -/
theorem matches_of_finds (hroot : IsRoot t root above) (hparse : Pattern.parse p = .ok pattern)
    (hnames : ∀ name ∈ wholeComponents (Text.piecesOf '/' p),
      name ≠ "" ∧ name ≠ "." ∧ name ≠ ".*")
    (h : Selection.Finds t root p file) : pattern.Matches file.relPath := by
  have hvoid : "" ∉ wholeComponents (Text.piecesOf '/' p) := fun h => (hnames _ h).1 rfl
  have hhere : "." ∉ Text.piecesOf '/' p := by
    intro h
    cases mem_wholeComponents_or h with
    | inl h => exact (hnames _ h).2.1 rfl
    | inr h => contradiction
  have ⟨paths, hpaths, hmem, hrel⟩ := h
  obtain ⟨comps, found, htext, hcomps, hexpand, rfl⟩ :=
    (Selection.pathsOf_root_eq_ok_iff hroot).mp hpaths
  rw [relative_eq hhere, withoutFinalSlash_eq hvoid] at htext
  have hnaming : ∀ c ∈ collapse comps, c.IsNaming := by
    intro c hc
    have hc := mem_of_mem_collapse hc
    have ⟨h1, h2, h3⟩ := hnames c.text (htext ▸ List.mem_map_of_mem hc)
    exact { hcomps c hc with ne_empty := h1, ne_here := h2, ne_dotStar := h3 }
  have hin : .ok file.path ∈ expand t ((Text.piecesOf '/' (relative p)).getLast? == some "")
      (.at t root) (collapse comps) := by
    rw [hexpand]
    exact List.mem_map_of_mem (List.mem_mergeSort.mp hmem)
  have ⟨last, hwalks, hlast⟩ := walks_of_mem_expand t _ _ _ hin
  have ⟨added, hparts, hmatch⟩ := hwalks.laidAlong hroot.spells.text_ne hnaming
  have ⟨names, hspells, hrelPath⟩ := (relativePath_eq_ok_iff hroot.spells _ _).mp hrel
  have hadded : added = names.map .name := by
    rw [hlast, (spells_append_iff hroot.spells).mp hspells, Place.path_at] at hparts
    exact (List.append_cancel_left hparts).symm
  have hcomponents := namesMatch_collapse.mp (hmatch names hadded)
  have hne : names ≠ [] := by
    cases comps with
    | nil => exact absurd htext.symm (wholeComponents_ne_nil (Text.piecesOf_ne_nil '/' p))
    | cons => exact hcomponents.ne_nil
  rw [hrelPath]
  exact (matches_iff_namesMatch hparse htext hcomps
    (fun n hn => (hspells.name (by simp [hn])).2.2.2) hne).mpr hcomponents

/-- What a walk goes by are patterns, so are the components of the whole: those that it leaves out
are void or lone dots. -/
theorem exists_wholeComponents {kept : List Pattern}
    (hkept : kept.map Pattern.text = withoutFinalSlash (Text.piecesOf '/' (relative p)))
    (hcomps : ∀ c ∈ kept, c.IsComponent) :
    ∃ comps : List Pattern, comps.map Pattern.text = wholeComponents (Text.piecesOf '/' p) ∧
      ∀ c ∈ comps, c.IsComponent := by
  apply exists_components
  intro text htext
  cases eq_here_or_mem_relative (mem_of_mem_wholeComponents htext) with
  | inl heq => exact ⟨_, heq.symm, isComponent_here⟩
  | inr hmem =>
    cases eq_or_mem_withoutFinalSlash hmem with
    | inl heq => exact ⟨_, heq.symm, isComponent_empty⟩
    | inr hmem =>
      rw [← hkept] at hmem
      have ⟨c, hc, heq⟩ := List.mem_map.mp hmem
      exact ⟨c, heq, hcomps c hc⟩

theorem Glob.Pattern.IsComponent.literal?_of_void {c : Pattern} {name : String}
    (h : c.IsComponent) (htext : c.text = name) (hname : name = "" ∨ name = ".") :
    c.literal? = some name := by
  cases hname with
  | inl hempty =>
    rw [h.eq_of_text isComponent_empty (htext.trans hempty), hempty]
    rfl
  | inr hhere =>
    rw [h.eq_of_text isComponent_here (htext.trans hhere), hhere]
    decide

/-- An exclusion with a void segment or a lone dot matches no relative path. -/
theorem not_matches_of_finds (hroot : IsRoot t root above)
    (hparse : Pattern.parse p = .ok pattern) {name : String}
    (hmem : name ∈ wholeComponents (Text.piecesOf '/' p)) (hname : name = "" ∨ name = ".")
    (h : Selection.Finds t root p file) (hfile : file.relPath ≠ "") :
    ¬pattern.Matches file.relPath := by
  have ⟨paths, hpaths, _, hrel⟩ := h
  obtain ⟨kept, _, hkept, hkeptComps, _, rfl⟩ :=
    (Selection.pathsOf_root_eq_ok_iff hroot).mp hpaths
  have ⟨comps, htext, hcomps⟩ := exists_wholeComponents hkept hkeptComps
  have ⟨names, hspells, hrelPath⟩ := (relativePath_eq_ok_iff hroot.spells _ _).mp hrel
  have hnames : ∀ n ∈ names, n ≠ "" ∧ n ≠ "." ∧ n ≠ ".." ∧ '/' ∉ n.toList :=
    fun n hn => hspells.name (by simp [hn])
  have hne : names ≠ [] := by
    intro hnil
    rw [hrelPath, hnil] at hfile
    exact hfile rfl
  rw [hrelPath, matches_iff_namesMatch hparse htext hcomps (fun n hn => (hnames n hn).2.2.2) hne]
  intro hmatch
  rw [← htext] at hmem
  have ⟨c, hc, hctext⟩ := List.mem_map.mp hmem
  have hliteral := (hcomps c hc).literal?_of_void hctext hname
  have ⟨n, hn, hmatches⟩ := hmatch.exists_matches hc (Pattern.isRecursive_of_literal? hliteral)
  have hvoid := hnames n hn
  rw [(Pattern.matches_of_literal? hliteral).mp hmatches] at hvoid
  exact hname.elim hvoid.1 hvoid.2.1

theorem parse_of_compileExcludes (h : compileExcludes [p] = .ok [pattern]) :
    Pattern.parse p = .ok pattern := by
  rw [compileExcludes, List.mapM_cons, compilePattern] at h
  cases hp : Pattern.parse p with
  | error e =>
    rw [hp] at h
    contradiction
  | ok other =>
    rw [hp] at h
    rw [(List.cons.inj (Except.ok.inj h)).1]

/-- A file that a glob selects remains under the exclusion of the same spelling when other globs
select it and the exclusion does not match it. It never remains when the pattern's components all
name something; it always does when one of them is void or a lone dot. -/
theorem remains_iff {globs : List String} {first kept : List ResolvedFile}
    (hroot : canonicalRoot t q = .ok root) (hexclude : compileExcludes [p] = .ok [pattern])
    (hfirst : resolve t root [p] [] = .ok first)
    (hkept : resolve t root globs [pattern] = .ok kept) :
    ∃ all, resolve t root globs [] = .ok all ∧
      (∀ f ∈ first, f.relPath ∈ kept.map ResolvedFile.relPath ↔
        f.relPath ∈ all.map ResolvedFile.relPath ∧ ¬pattern.Matches f.relPath) ∧
      ((∀ name ∈ wholeComponents (Text.piecesOf '/' p),
          name ≠ "" ∧ name ≠ "." ∧ name ≠ ".*") →
        ∀ f ∈ first, f.relPath ∉ kept.map ResolvedFile.relPath) ∧
      ((∃ name ∈ wholeComponents (Text.piecesOf '/' p), name = "" ∨ name = ".") →
        ∀ f ∈ first, f.relPath ≠ "" → f.relPath ∈ all.map ResolvedFile.relPath →
          f.relPath ∈ kept.map ResolvedFile.relPath) := by
  have ⟨above, hisRoot⟩ := isRoot_of_canonicalRoot hroot
  have hparse := parse_of_compileExcludes hexclude
  have hfinds : ∀ f ∈ first, Selection.Finds t root p f := by
    intro f hf
    have ⟨⟨r, hr, h⟩, _⟩ := finds_of_mem_resolve hfirst hf
    exact List.mem_singleton.mp hr ▸ h
  rw [resolve_eq_filter] at hkept
  cases hall : resolve t root globs [] with
  | error e =>
    rw [hall] at hkept
    contradiction
  | ok all =>
    rw [hall] at hkept
    have hkept := (Except.ok.inj hkept).symm
    have hiff (relPath : String) : relPath ∈ kept.map ResolvedFile.relPath ↔
        relPath ∈ all.map ResolvedFile.relPath ∧ ¬pattern.Matches relPath := by
      rw [← Pattern.matches_iff, hkept, List.mem_map, List.mem_map]
      refine ⟨fun ⟨f, hf, hrel⟩ => ?_, fun ⟨⟨f, hf, hrel⟩, hnot⟩ => ?_⟩
      · have ⟨hmem, hnot⟩ := List.mem_filter.mp hf
        exact ⟨⟨f, hmem, hrel⟩, by simpa [hrel] using hnot⟩
      · exact ⟨f, List.mem_filter.mpr ⟨hf, by simpa [hrel] using hnot⟩, hrel⟩
    refine ⟨all, rfl, fun f _ => hiff _, fun hnames f hf hin => ?_, fun hvoid f hf hfile hin => ?_⟩
    · exact ((hiff _).mp hin).2 (matches_of_finds hisRoot hparse hnames (hfinds f hf))
    · have ⟨name, hmem, hname⟩ := hvoid
      exact (hiff _).mpr
        ⟨hin, not_matches_of_finds hisRoot hparse hmem hname (hfinds f hf) hfile⟩

/-- A leading `./` is dropped from a glob and kept in an exclusion. -/
theorem resolve_here_oneFile : ∃ pattern, compileExcludes ["./a"] = .ok [pattern] ∧
    resolve FileTree.oneFile ⟨"/"⟩ ["./a"] [] = .ok [⟨⟨"/a"⟩, "a"⟩] ∧
    resolve FileTree.oneFile ⟨"/"⟩ ["a"] [pattern] = .ok [⟨⟨"/a"⟩, "a"⟩] :=
  ⟨⟨"./a", [.literal '.', .literal '/', .literal 'a']⟩, by cbv, by cbv, by cbv⟩

theorem remains_iff_oneFile : ∃ all, resolve FileTree.oneFile ⟨"/"⟩ ["a"] [] = .ok all ∧
    (∀ f ∈ [(⟨⟨"/a"⟩, "a"⟩ : ResolvedFile)],
      f.relPath ∈ [(⟨⟨"/a"⟩, "a"⟩ : ResolvedFile)].map ResolvedFile.relPath ↔
        f.relPath ∈ all.map ResolvedFile.relPath ∧
          ¬Pattern.Matches ⟨"./a", [.literal '.', .literal '/', .literal 'a']⟩ f.relPath) :=
  have ⟨all, hall, hiff, _⟩ := remains_iff (q := ⟨"/"⟩) (t := FileTree.oneFile)
    (show canonicalRoot FileTree.oneFile ⟨"/"⟩ = .ok ⟨"/"⟩ by cbv)
    (show compileExcludes ["./a"] =
      .ok [⟨"./a", [.literal '.', .literal '/', .literal 'a']⟩] by cbv)
    (show resolve FileTree.oneFile ⟨"/"⟩ ["./a"] [] = .ok [⟨⟨"/a"⟩, "a"⟩] by cbv)
    (show resolve FileTree.oneFile ⟨"/"⟩ ["a"]
      [⟨"./a", [.literal '.', .literal '/', .literal 'a']⟩] = .ok [⟨⟨"/a"⟩, "a"⟩] by cbv)
  ⟨all, hall, hiff⟩

end Sidecar
