import Sidecar.Proofs.Confinement
import Sidecar.Proofs.Repetition

/-! Dry runs. A dry run takes the same files as the run that writes and fails where that would fail
to read, so it tells all of it but the failures to write. -/

namespace Sidecar

def RunOptions.withDryRun (options : RunOptions) (dryRun : Bool) : RunOptions :=
  { options with dryRun }

namespace Generation

section

variable {options : RunOptions} {t : FileTree}

/-- A run fails before it takes a file, in either mode, or it takes the same files in both. -/
theorem run_dryRun_cases (options : RunOptions) (t : FileTree) :
    (∃ e, ∀ dryRun, (run (options.withDryRun dryRun) t).result = .error e ∧
      (run (options.withDryRun dryRun) t).tree = t) ∨
    ∃ root exclude files, canonicalRoot t options.root = .ok root ∧
      compileExcludes options.exclude = .ok exclude ∧
      resolve t root options.globs exclude = .ok files ∧
      ∀ dryRun, Takes (options.withDryRun dryRun) t files (run (options.withDryRun dryRun) t).result
        (run (options.withDryRun dryRun) t).tree := by
  cases hroot : canonicalRoot t options.root with
  | error e => exact .inl ⟨e, fun dryRun => run_of_canonicalRoot (options.withDryRun dryRun) hroot⟩
  | ok root =>
    cases hexclude : compileExcludes options.exclude with
    | error e =>
      exact .inl ⟨e, fun dryRun =>
        run_of_compileExcludes (options.withDryRun dryRun) hroot hexclude⟩
    | ok exclude =>
      cases hfiles : resolve t root options.globs exclude with
      | error e =>
        exact .inl ⟨e, fun dryRun =>
          run_of_resolve (options.withDryRun dryRun) hroot hexclude hfiles⟩
      | ok files =>
        have hrun (dryRun : Bool) : (run (options.withDryRun dryRun) t).result =
              (ofFiles (options.withDryRun dryRun) t files).result ∧
            (run (options.withDryRun dryRun) t).tree =
              (ofFiles (options.withDryRun dryRun) t files).tree :=
          run_eq_ofFiles hroot hexclude hfiles
        by_cases h : options.strict = false ∨ collisions options.context.domain files = []
        · refine .inr ⟨root, exclude, files, rfl, rfl, hfiles, fun dryRun => ?_⟩
          rw [(hrun dryRun).1, (hrun dryRun).2]
          exact takes_ofFiles (options.withDryRun dryRun) h t
        · rw [not_or, Bool.not_eq_false] at h
          have ⟨first, more, hshared⟩ := List.exists_cons_of_ne_nil h.2
          refine .inl ⟨.sharedId first.contentId first.paths, fun dryRun => ?_⟩
          rw [(hrun dryRun).1, (hrun dryRun).2,
            ofFiles_of_shared (options.withDryRun dryRun) h.1 hshared]
          exact ⟨rfl, rfl⟩

theorem tree_of_takes_dryRun {files : List ResolvedFile} {result : Except Failure Report}
    {u : FileTree} (h : Takes (options.withDryRun true) t files result u) : u = t :=
  have ⟨_, _, hrun, _⟩ := h
  tree_of_processAll_dryRun hrun

section

variable {ctx : RecordContext} {files dried taken : List ResolvedFile} {failure : Option Failure}
  {e : Failure}

/-- A file that a dry run fails at cannot be read, and a run that writes fails there as well. -/
theorem fails_of_dryRun {file : ResolvedFile} (h : Fails ctx true t file e) :
    ∃ cause, t.read file.path = .error cause ∧ e = .unreadable file.path cause ∧
      Fails ctx false t file e := by
  cases h with
  | read hread => exact ⟨_, hread, rfl, .read hread⟩
  | write hdry => contradiction

/-- Where a run that writes ends, when a dry run of the same files fails: there, or at the sidecar
of an earlier file. -/
theorem ends_of_dryRun_error (hdry : Ends ctx true t files dried (some e))
    (hfine : ∀ f ∈ dried, ∀ e, ¬Fails ctx true t f e) (hreal : Ends ctx false t files taken failure)
    (hfine' : ∀ f ∈ taken, ∀ e, ¬Fails ctx false t f e) :
    failure = some e ∨
    ∃ file middle failing rest cause reason,
      files = taken ++ file :: middle ++ failing :: rest ∧ e = .unreadable failing.path cause ∧
      Fails ctx false t file (.unwritable (sidecarPath file.path) reason) ∧
      failure = some (.unwritable (sidecarPath file.path) reason) := by
  have ⟨failing, rest, hfiles, hfails⟩ := hdry
  have ⟨cause, hread, he, hfails'⟩ := fails_of_dryRun hfails
  have hnot : failing ∉ taken := fun hmem => hfine' failing hmem e hfails'
  cases failure with
  | none =>
    obtain rfl : files = taken := hreal
    exact absurd (by simp [hfiles]) hnot
  | some other =>
    have ⟨file, _, hfiles', hfile⟩ := hreal
    rcases cut_cases (hfiles.symm.trans hfiles') with heq | hmem | ⟨middle, hdried⟩
    · refine .inl (congrArg some ?_)
      rw [← heq] at hfile
      cases hfile with
      | read hread' => rw [he, Except.error.inj (hread'.symm.trans hread)]
      | write _ hread' =>
        rw [hread] at hread'
        contradiction
    · exact absurd hmem hnot
    · cases hfile with
      | read hread' => exact absurd (.read hread') (hfine file (by simp [hdried]) _)
      | write hwrites hread' hwrite =>
        exact .inr ⟨file, middle, failing, rest, cause, _, hdried ▸ hfiles, he,
          .write hwrites hread' hwrite, rfl⟩

end

structure Foretells (options : RunOptions) (t : FileTree) : Prop where
  /-- It changes nothing. -/
  tree_eq : (run (options.withDryRun true) t).tree = t
  /-- It reports what the run that writes reports, if that succeeds. -/
  result_eq : ∀ report, (run (options.withDryRun false) t).result = .ok report →
    (run (options.withDryRun true) t).result = .ok { report with dryRun := true }
  /-- Where it fails, the run that writes fails alike, unless the sidecar of an earlier file cannot
  be written. -/
  same_or_earlier : ∀ e, (run (options.withDryRun true) t).result = .error e →
    (run (options.withDryRun false) t).result = .error e ∨
    ∃ root exclude before file middle failing rest cause reason,
      canonicalRoot t options.root = .ok root ∧
      compileExcludes options.exclude = .ok exclude ∧
      resolve t root options.globs exclude = .ok (before ++ file :: middle ++ failing :: rest) ∧
      e = .unreadable failing.path cause ∧
      Fails options.context false t file (.unwritable (sidecarPath file.path) reason) ∧
      (run (options.withDryRun false) t).result =
        .error (.unwritable (sidecarPath file.path) reason)
  /-- A failure that it does not meet is one to write. -/
  unwritable : ∀ report e, (run (options.withDryRun true) t).result = .ok report →
    (run (options.withDryRun false) t).result = .error e → ∃ p cause, e = .unwritable p cause

/-- A dry run tells all of the run that writes but the failures to write. -/
theorem dryRun_foretells (options : RunOptions) (hfree : LinkFreeUnder t options.root) :
    Foretells options t := by
  cases run_dryRun_cases options t with
  | inl hearly =>
    have ⟨e, he⟩ := hearly
    exact ⟨(he true).2, by simp [he], by simp [he], by simp [he]⟩
  | inr htakes =>
    have ⟨root, exclude, files, hroot, hexclude, hfiles, htakes⟩ := htakes
    have ⟨above, hisRoot⟩ := isRoot_of_canonicalRoot hroot
    have hbelow := hfree root above hroot hisRoot.spells
    have ⟨dried, reports, failure, hreports, hfine, _, hends, hresult⟩ :=
      (htakes true).ends hisRoot hbelow hfiles
    have ⟨taken, reports', failure', hreports', hfine', _, hends', hresult'⟩ :=
      (htakes false).ends hisRoot hbelow hfiles
    refine ⟨tree_of_takes_dryRun (htakes true), fun report h => ?_, fun e h => ?_,
      fun report e hdry hreal => ?_⟩
    · obtain ⟨rfl, rfl⟩ := resultOf_eq_ok_iff.mp (hresult'.symm.trans h)
      obtain rfl : files = taken := hends'
      cases failure with
      | some e =>
        have ⟨failing, _, hsplit, hfails⟩ := hends
        have ⟨_, _, _, hfails'⟩ := fails_of_dryRun hfails
        exact absurd hfails' (hfine' failing (by simp [hsplit]) e)
      | none =>
        obtain rfl : files = dried := hends
        rw [hresult, reports_unique hreports' hreports fun _ _ => rfl]
        rfl
    · obtain rfl := resultOf_eq_error_iff.mp (hresult.symm.trans h)
      rcases ends_of_dryRun_error hends hfine hends' hfine' with hsame | hearlier
      · exact .inl (hresult'.trans (resultOf_eq_error_iff.mpr hsame))
      · obtain ⟨file, middle, failing, rest, cause, reason, hsplit, he, hfails, hfailure⟩ :=
          hearlier
        exact .inr ⟨root, exclude, taken, file, middle, failing, rest, cause, reason, hroot,
          hexclude, hsplit ▸ hfiles, he, hfails,
          hresult'.trans (resultOf_eq_error_iff.mpr hfailure)⟩
    · obtain ⟨rfl, _⟩ := resultOf_eq_ok_iff.mp (hresult.symm.trans hdry)
      obtain rfl := resultOf_eq_error_iff.mp (hresult'.symm.trans hreal)
      obtain rfl : files = dried := hends
      have ⟨file, _, hsplit, hfails⟩ := hends'
      cases hfails with
      | read hread => exact absurd (.read hread) (hfine file (by simp [hsplit]) _)
      | write => exact ⟨_, _, rfl⟩

/-- The tree of one file with a directory where the sidecar would go. -/
def blockedTree : FileTree :=
  FileTree.oneFile.put ["a.metadata.json"] .directory (by decide)

theorem dryRun_foretells_blockedTree :
    (∃ report, (run (onlyFileRun.withDryRun true) blockedTree).result = .ok report) ∧
    (run (onlyFileRun.withDryRun false) blockedTree).result =
      .error (.unwritable ⟨"/a.metadata.json"⟩ .isADirectory) ∧
    Foretells onlyFileRun blockedTree := by
  have hroot : canonicalRoot blockedTree ⟨"/"⟩ = .ok ⟨"/"⟩ := by cbv
  have hfiles : resolve blockedTree ⟨"/"⟩ ["a"] [] = .ok [onlyFile] := by cbv
  have hread : blockedTree.read onlyFile.path = .ok "x".toUTF8 := by cbv
  have hplace := locate_onlyFile (t := blockedTree) (.inr (by decide))
  have hwrite := FileTree.write_of_not_accepts hplace (by decide)
    (sidecarBytes onlyFileRun.context onlyFile "x".toUTF8)
  have hfree : blockedTree.LinkFree := FileTree.linkFree_oneFile.put (by simp) _
  refine ⟨⟨_, run_eq_resultOf hroot rfl hfiles rfl
    (processAll_of_ok (process_dryRun hread) (processAll_nil ..))⟩, ?_,
    dryRun_foretells onlyFileRun fun _ _ _ _ => hfree.below _⟩
  rw [← sidecarPath_onlyFile]
  exact run_eq_resultOf hroot rfl hfiles rfl
    (processAll_of_error (process_of_unwritable hread hwrite))

end

end Generation

end Sidecar
