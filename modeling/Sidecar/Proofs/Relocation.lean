import Sidecar.Proofs.Alike
import Sidecar.Proofs.Generation
import Sidecar.Proofs.Grouping

/-! Runs under two directories with the same content. Neither the name of a root nor where it stands
shows in what a run reports or writes, or in the kind of failure it ends with. -/

namespace Sidecar

open Sidecar.Path Selection

/-- The same run under another root. -/
def RunOptions.withRoot (options : RunOptions) (root : Path) : RunOptions :=
  { options with root }

/-- Collisions are told by relative paths alone. -/
theorem collisions_congr {files others : List ResolvedFile} (d : Domain)
    (h : files.map ResolvedFile.relPath = others.map ResolvedFile.relPath) :
    collisions d files = collisions d others := by
  have hids (fs : List ResolvedFile) : fs.map (Generation.idOf d) =
      (fs.map ResolvedFile.relPath).map (Identity.contentId d) := by
    rw [List.map_map]
    rfl
  have hpaths (fs : List ResolvedFile) (id : String) : Generation.pathsOfId d fs id =
      (fs.map ResolvedFile.relPath).filter fun p => Identity.contentId d p = id := by
    rw [List.filter_map]
    rfl
  simp only [collisions_eq, hids, hpaths, h]

namespace Generation

/-- The operating system's limit on the length of paths is not reached: neither by a path that the
run looks up nor by that of a sidecar it may write. -/
structure WithinLimits (options : RunOptions) (t : FileTree) : Prop where
  walks : ∀ root, canonicalRoot t options.root = .ok root →
    ∀ glob ∈ options.globs, StaysShort t root glob
  sidecars : options.dryRun = false → ∀ root exclude files,
    canonicalRoot t options.root = .ok root → compileExcludes options.exclude = .ok exclude →
    resolve t root options.globs exclude = .ok files →
    ∀ f ∈ files, (sidecarPath f.path).text.utf8ByteSize < FileTree.maxPathBytes

/-- Two runs succeed with the same report or fail with failures of one kind. -/
def EndsAlike (result other : Except Failure Report) : Prop :=
  (∃ report, result = .ok report ∧ other = .ok report) ∨
    ∃ e e', result = .error e ∧ other = .error e' ∧ e.SameKind e'

section

variable {t u : FileTree} {a b : Location} {file other : ResolvedFile}
  {files others : List ResolvedFile} {ctx : RecordContext} {dryRun : Bool}

/-- The sidecars that a run writes beside the files have paths that are short enough. -/
def SidecarsFit (dryRun : Bool) (files : List ResolvedFile) : Prop :=
  dryRun = false → ∀ f ∈ files, (sidecarPath f.path).text.utf8ByteSize < FileTree.maxPathBytes

theorem SidecarsFit.head (h : SidecarsFit dryRun (file :: files)) (hdry : dryRun = false) :
    (sidecarPath file.path).text.utf8ByteSize < FileTree.maxPathBytes :=
  h hdry file List.mem_cons_self

theorem SidecarsFit.tail (h : SidecarsFit dryRun (file :: files)) : SidecarsFit dryRun files :=
  fun hdry f hf => h hdry f (List.mem_cons_of_mem _ hf)

theorem relPath_alike (h : FileAlike a b file other) : file.relPath = other.relPath := by
  obtain ⟨trail, _, _, _, rfl, rfl⟩ := h
  rfl

/-- A record says nothing of where the root is. -/
theorem recordOf_alike (ha : ∀ n ∈ a, IsEntryName n) (hb : ∀ n ∈ b, IsEntryName n)
    (h : FileAlike a b file other) (content : ByteArray) :
    recordOf ctx file content = recordOf ctx other content := by
  obtain ⟨trail, hfits, _, hplain, rfl, rfl⟩ := h
  have hname : (fileBehind a trail).path.fileName? = (fileBehind b trail).path.fileName? := by
    simp only [fileBehind, fileName?_behind ha hfits.toIsTrail hplain,
      fileName?_behind hb hfits.toIsTrail hplain]
  have hrel : (fileBehind a trail).relPath = (fileBehind b trail).relPath := rfl
  simp only [recordOf, Record.assemble, hrel, Path.stem, Identity.mediaType, Path.extension?, hname]

/-- A sidecar is written below both roots, or refused below both for the same cause. -/
theorem write_sidecar_alike (h : t.IsCopy a u b) (hfile : FileAlike a b file other)
    (ht : (sidecarPath file.path).text.utf8ByteSize < FileTree.maxPathBytes)
    (hu : (sidecarPath other.path).text.utf8ByteSize < FileTree.maxPathBytes)
    (content : ByteArray) :
    (∃ cause, t.write (sidecarPath file.path) content = .error cause ∧
      u.write (sidecarPath other.path) content = .error cause) ∨
    ∃ t' u', t.write (sidecarPath file.path) content = .ok t' ∧
      u.write (sidecarPath other.path) content = .ok u' ∧ t'.IsCopy a u' b := by
  obtain ⟨trail, hfits, _, hplain, rfl, rfl⟩ := hfile
  have htrail := hfits.toIsTrail
  have hside : sidecarPath (fileBehind a trail).path = behind a (sidecarTrail trail) :=
    sidecarPath_behind h.isEntryName htrail hplain
  have hside' : sidecarPath (fileBehind b trail).path = behind b (sidecarTrail trail) :=
    sidecarPath_behind h.symm.isEntryName htrail hplain
  rw [hside] at ht ⊢
  rw [hside'] at hu ⊢
  exact h.write_eq ⟨isTrail_sidecarTrail htrail, ht⟩ ⟨isTrail_sidecarTrail htrail, hu⟩
    (exists_name_sidecarTrail hplain) content

/-- One file: it is taken under both roots or fails under both. -/
theorem process_alike (ctx : RecordContext) (h : t.IsCopy a u b)
    (hfile : FileAlike a b file other)
    (ht : dryRun = false → (sidecarPath file.path).text.utf8ByteSize < FileTree.maxPathBytes)
    (hu : dryRun = false → (sidecarPath other.path).text.utf8ByteSize < FileTree.maxPathBytes) :
    (∃ e e', process ctx dryRun t file = .error e ∧ process ctx dryRun u other = .error e' ∧
      e.SameKind e') ∨
    ∃ processed t' u', process ctx dryRun t file = .ok (processed, t') ∧
      process ctx dryRun u other = .ok (processed, u') ∧ t'.IsCopy a u' b := by
  have hread : u.read other.path = t.read file.path := by
    obtain ⟨trail, hfits, hfits', _, rfl, rfl⟩ := hfile
    exact h.read_eq hfits hfits'
  cases hcontent : t.read file.path with
  | error cause =>
    exact .inl ⟨_, _, process_of_unreadable hcontent, process_of_unreadable (hread.trans hcontent),
      .unreadable ..⟩
  | ok content =>
    have hcontent' := hread.trans hcontent
    have hrecord : recordOf ctx file content = recordOf ctx other content :=
      recordOf_alike h.isEntryName h.symm.isEntryName hfile content
    have hprocessed : (recordOf ctx other content).processed other.relPath =
        (recordOf ctx file content).processed file.relPath := by
      rw [hrecord, relPath_alike hfile]
    cases dryRun with
    | true =>
      refine .inr ⟨_, t, u, process_dryRun hcontent, ?_, h⟩
      rw [process_dryRun hcontent', hprocessed]
    | false =>
      have hbytes : sidecarBytes ctx other content = sidecarBytes ctx file content := by
        rw [sidecarBytes, sidecarBytes, hrecord]
      cases write_sidecar_alike h hfile (ht rfl) (hu rfl) (sidecarBytes ctx file content) with
      | inl hfail =>
        obtain ⟨cause, hw, hw'⟩ := hfail
        rw [← hbytes] at hw'
        exact .inl ⟨_, _, process_of_unwritable hcontent hw, process_of_unwritable hcontent' hw',
          .unwritable ..⟩
      | inr hwritten =>
        obtain ⟨t', u', hw, hw', hcopy⟩ := hwritten
        rw [← hbytes] at hw'
        refine .inr ⟨_, t', u', process_of_written hcontent hw, ?_, hcopy⟩
        rw [process_of_written hcontent' hw', hprocessed]

/-- All files: the same are taken under both roots, up to one that fails under both. -/
theorem processAll_alike (ctx : RecordContext) (h : t.IsCopy a u b)
    (hfiles : List.Forall₂ (FileAlike a b) files others)
    (ht : SidecarsFit dryRun files) (hu : SidecarsFit dryRun others) :
    ∃ reports t' u' failure failure', processAll ctx dryRun t files = (reports, t', failure) ∧
      processAll ctx dryRun u others = (reports, u', failure') ∧ t'.IsCopy a u' b ∧
      (failure = none ∧ failure' = none ∨
        ∃ e e', failure = some e ∧ failure' = some e' ∧ e.SameKind e') := by
  induction hfiles generalizing t u with
  | nil => exact ⟨[], t, u, none, none, rfl, rfl, h, .inl ⟨rfl, rfl⟩⟩
  | @cons file other files others hfile _ ih =>
    cases process_alike ctx h hfile ht.head hu.head with
    | inl hfail =>
      obtain ⟨e, e', he, he', hkind⟩ := hfail
      exact ⟨[], t, u, some e, some e', processAll_of_error he, processAll_of_error he', h,
        .inr ⟨e, e', rfl, rfl, hkind⟩⟩
    | inr hnext =>
      obtain ⟨processed, t', u', hp, hp', hcopy⟩ := hnext
      obtain ⟨reports, t'', u'', failure, failure', hrest, hrest', hends⟩ :=
        ih hcopy ht.tail hu.tail
      exact ⟨processed :: reports, t'', u'', failure, failure', processAll_of_ok hp hrest,
        processAll_of_ok hp' hrest', hends⟩

/-- What becomes of the files that were selected is the same under both roots. -/
theorem ofFiles_alike (options : RunOptions) (h : t.IsCopy a u b)
    (hfiles : List.Forall₂ (FileAlike a b) files others)
    (ht : SidecarsFit options.dryRun files) (hu : SidecarsFit options.dryRun others) :
    EndsAlike (ofFiles options t files).result (ofFiles options u others).result ∧
      (ofFiles options t files).tree.IsCopy a (ofFiles options u others).tree b := by
  have hrel : files.map ResolvedFile.relPath = others.map ResolvedFile.relPath := by
    rw [← List.forall₂_eq_eq_eq, List.forall₂_map_left_iff, List.forall₂_map_right_iff]
    exact hfiles.imp fun _ _ => relPath_alike
  have hshared : collisions options.context.domain others =
      collisions options.context.domain files := (collisions_congr _ hrel).symm
  by_cases hfirst : options.strict = true ∧ collisions options.context.domain files ≠ []
  · obtain ⟨hstrict, hne⟩ := hfirst
    obtain ⟨first, more, hsome⟩ := List.exists_cons_of_ne_nil hne
    rw [ofFiles_of_shared options hstrict hsome,
      ofFiles_of_shared options hstrict (hshared.trans hsome)]
    exact ⟨.inr ⟨_, _, rfl, rfl, .sharedId ..⟩, h⟩
  · have hgoes : options.strict = false ∨ collisions options.context.domain files = [] := by
      rw [not_and_or, Bool.not_eq_true, Decidable.not_not] at hfirst
      exact hfirst
    have htakes : Takes options t files (ofFiles options t files).result
        (ofFiles options t files).tree := takes_ofFiles options hgoes t
    have htakes' : Takes options u others (ofFiles options u others).result
        (ofFiles options u others).tree := takes_ofFiles options (hshared.symm ▸ hgoes) u
    obtain ⟨taken, failure, hrun, hresult⟩ := htakes
    obtain ⟨taken', failure', hrun', hresult'⟩ := htakes'
    obtain ⟨reports, t', u', e, e', hall, hall', hcopy, hends⟩ :=
      processAll_alike options.context h hfiles ht hu
    rw [hall, Prod.mk.injEq, Prod.mk.injEq] at hrun
    rw [hall', Prod.mk.injEq, Prod.mk.injEq] at hrun'
    obtain ⟨rfl, htree, rfl⟩ := hrun
    obtain ⟨rfl, htree', rfl⟩ := hrun'
    rw [← htree, ← htree', hresult, hresult']
    refine ⟨?_, hcopy⟩
    cases hends with
    | inl hnone =>
      obtain ⟨rfl, rfl⟩ := hnone
      rw [resultOf, resultOf, hshared]
      exact .inl ⟨_, rfl, rfl⟩
    | inr hfail =>
      obtain ⟨e, e', rfl, rfl, hkind⟩ := hfail
      exact .inr ⟨e, e', rfl, rfl, hkind⟩

end

/-- Where a root stands and what it is called is of no account: two runs by patterns that do not go
up, under directories with the same content, report the same or fail alike, and leave the same
content, as long as no path is too long for the operating system. -/
theorem run_relocated {options : RunOptions} {t u : FileTree} {root other p : Path}
    {a b : Location} (hroot : canonicalRoot t options.root = .ok root)
    (hother : canonicalRoot u p = .ok other) (ha : root.Spells a) (hb : other.Spells b)
    (h : t.IsCopy a u b) (hglobs : ∀ glob ∈ options.globs, Glob.StaysDown glob)
    (ht : WithinLimits options t) (hu : WithinLimits (options.withRoot p) u) :
    EndsAlike (run options t).result (run (options.withRoot p) u).result ∧
      (run options t).tree.IsCopy a (run (options.withRoot p) u).tree b := by
  obtain ⟨above, hisRoot⟩ := isRoot_of_canonicalRoot hroot
  obtain rfl := hisRoot.spells.unique ha
  obtain ⟨above', hisRoot'⟩ := isRoot_of_canonicalRoot hother
  obtain rfl := hisRoot'.spells.unique hb
  cases hexclude : compileExcludes options.exclude with
  | error e =>
    have ⟨hresult, htree⟩ := run_of_compileExcludes options hroot hexclude
    have ⟨hresult', htree'⟩ := run_of_compileExcludes (options.withRoot p) hother hexclude
    rw [hresult, hresult', htree, htree']
    exact ⟨.inr ⟨e, e, rfl, rfl, .refl e⟩, h⟩
  | ok exclude =>
    have halike := resolve_alike h hisRoot hisRoot' hglobs (ht.walks root hroot)
      (hu.walks other hother) exclude
    cases halike with
    | inl hfail =>
      obtain ⟨e, e', he, he', hkind⟩ := hfail
      have ⟨hresult, htree⟩ := run_of_resolve options hroot hexclude he
      have ⟨hresult', htree'⟩ := run_of_resolve (options.withRoot p) hother hexclude he'
      rw [hresult, hresult', htree, htree']
      exact ⟨.inr ⟨e, e', rfl, rfl, hkind⟩, h⟩
    | inr hfound =>
      obtain ⟨files, others, hfiles, hfiles', hsame⟩ := hfound
      have ⟨hresult, htree⟩ := run_eq_ofFiles hroot hexclude hfiles
      have ⟨hresult', htree'⟩ :=
        @run_eq_ofFiles (options.withRoot p) u others other exclude hother hexclude hfiles'
      rw [hresult, hresult', htree, htree']
      exact ofFiles_alike options h hsame
        (fun hdry => ht.sidecars hdry root exclude files hroot hexclude hfiles)
        fun hdry => hu.sidecars hdry other exclude others hother hexclude hfiles'

/-! A root that is called as a wildcard is. -/

section

open Glob

/-- The tree of one file below a directory that is called as a wildcard is. -/
def starTree : FileTree :=
  (FileTree.empty.put ["*"] .directory (by decide)).put ["a", "*"] (.file "x".toUTF8) (by decide)

theorem isRoot_starTree : IsRoot starTree ⟨"/*"⟩ ["*"] :=
  ⟨rfl, rfl, by decide⟩

/-- Both trees are made by putting the same file into an empty directory. -/
theorem isCopy_starTree : FileTree.oneFile.IsCopy [] starTree ["*"] := by
  have hempty : FileTree.empty.IsCopy []
      (FileTree.empty.put ["*"] .directory (by decide)) ["*"] := by
    refine ⟨rfl, fun below => ?_, FileTree.linkFree_empty.below []⟩
    cases below with
    | nil => rfl
    | cons name below =>
      rw [FileTree.get?_put_of_ne _ (by simp)]
      rfl
  exact @FileTree.IsCopy.put _ _ [] ["*"] hempty ["a"] "x".toUTF8 (by decide) (by decide)

theorem componentsOf_a {comps : List Pattern} :
    ComponentsOf "a" comps ↔ comps = [⟨"a", [.literal 'a']⟩] := by
  have ha : Pattern.IsComponent ⟨"a", [.literal 'a']⟩ :=
    ⟨Pattern.parse_eq_ok_iff.mpr ⟨rfl, by cbv⟩, by decide⟩
  have htexts : withoutFinalSlash (Text.piecesOf '/' (relative "a")) = ["a"] := by decide
  rw [ComponentsOf, htexts]
  constructor
  · intro h
    exact eq_of_texts h.2 (by simpa using ha) h.1
  · rintro rfl
    exact ⟨rfl, by simpa using ha⟩

/-- A walk by one name looks up nothing but the path of that name. -/
theorem staysShort_a {t : FileTree} {root : Path} {above : Location} (hroot : IsRoot t root above)
    (hshort : (root.child "a").text.utf8ByteSize < FileTree.maxPathBytes) :
    StaysShort t root "a" := by
  refine (staysShort_iff hroot).mpr fun comps hcomps p hp => ?_
  rw [componentsOf_a.mp hcomps] at hp
  have hliteral : Pattern.literal? ⟨"a", [.literal 'a']⟩ = some "a" := by decide
  cases LooksUp.of_literal hliteral hp with
  | inl h => exact h ▸ hshort
  | inr h => exact h.of_nil ▸ hshort

theorem resolve_starTree : resolve starTree ⟨"/*"⟩ ["a"] [] = .ok [⟨⟨"/*/a"⟩, "a"⟩] := by
  have hexpand : expand starTree (endsInSlash "a") (.at starTree ⟨"/*"⟩)
      (collapse [⟨"a", [.literal 'a']⟩]) = [.ok (behind ["*"] ["a"])] := by cbv
  have htrail : ∀ x ∈ [["a"]], IsTrail x := by
    simpa using (⟨by decide, by decide⟩ : IsTrail ["a"])
  have hpaths := pathsOf_of_expand isRoot_starTree (componentsOf_a.mpr rfl) htrail hexpand
  rw [List.mergeSort_singleton] at hpaths
  have hsteps :=
    stepsOf_behind isCopy_starTree.symm.isEntryName isRoot_starTree.spells htrail hpaths
  refine resolve_eq_ok_iff.mpr ⟨[.found ⟨⟨"/*/a"⟩, "a"⟩], ?_, by cbv⟩
  rw [survey, hsteps]
  rfl

theorem withinLimits_a {t : FileTree} {options : RunOptions} {root : Path} {above : Location}
    {file : ResolvedFile} (hroot : IsRoot t root above)
    (hcanonical : canonicalRoot t options.root = .ok root) (hglobs : options.globs = ["a"])
    (hexclude : options.exclude = []) (hfiles : resolve t root ["a"] [] = .ok [file])
    (hshort : (root.child "a").text.utf8ByteSize < FileTree.maxPathBytes)
    (hside : (sidecarPath file.path).text.utf8ByteSize < FileTree.maxPathBytes) :
    WithinLimits options t := by
  refine ⟨fun other h glob hglob => ?_, fun _ other exclude files h hcompiled hresolve f hf => ?_⟩
  · obtain rfl := Except.ok.inj (hcanonical.symm.trans h)
    rw [hglobs, List.mem_singleton] at hglob
    exact hglob ▸ staysShort_a hroot hshort
  · obtain rfl := Except.ok.inj (hcanonical.symm.trans h)
    rw [hexclude] at hcompiled
    obtain rfl : [] = exclude := Except.ok.inj hcompiled
    rw [hglobs, hfiles] at hresolve
    rw [← Except.ok.inj hresolve, List.mem_singleton] at hf
    exact hf ▸ hside

theorem run_relocated_oneFile :
    canonicalRoot FileTree.oneFile onlyFileRun.root = .ok ⟨"/"⟩ ∧
    canonicalRoot starTree ⟨"/*"⟩ = .ok ⟨"/*"⟩ ∧
    EndsAlike (run onlyFileRun FileTree.oneFile).result
      (run (onlyFileRun.withRoot ⟨"/*"⟩) starTree).result ∧
    (run onlyFileRun FileTree.oneFile).tree.IsCopy []
      (run (onlyFileRun.withRoot ⟨"/*"⟩) starTree).tree ["*"] := by
  have hroot : canonicalRoot FileTree.oneFile onlyFileRun.root = .ok ⟨"/"⟩ :=
    isRoot_oneFile.canonicalRoot_eq
  have hother := isRoot_starTree.canonicalRoot_eq
  have hglobs : ∀ glob ∈ onlyFileRun.globs, Glob.StaysDown glob := by
    have hpieces : Text.piecesOf '/' "a" = ["a"] := by decide
    simpa [onlyFileRun] using ⟨by simp [hpieces], by simp [hpieces]⟩
  have hfiles : resolve FileTree.oneFile ⟨"/"⟩ ["a"] [] = .ok [onlyFile] := by cbv
  exact ⟨hroot, hother, run_relocated hroot hother isRoot_oneFile.spells isRoot_starTree.spells
    isCopy_starTree hglobs
    (withinLimits_a isRoot_oneFile hroot rfl rfl hfiles (by decide) (by decide))
    (withinLimits_a isRoot_starTree hother rfl rfl resolve_starTree (by decide) (by decide))⟩

end

end Generation

end Sidecar
