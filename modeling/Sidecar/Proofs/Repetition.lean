import Sidecar.Proofs.Sidecars

/-! Runs one after another. Neither the files that a run selects nor what it needs of them depends
on sidecars that are there, so a run that succeeded does nothing new when it is repeated, and two
runs can be taken together, in either order. -/

namespace Sidecar

open Generation Glob

/-- The same run by other patterns. -/
def RunOptions.withGlobs (options : RunOptions) (globs : List String) : RunOptions :=
  { options with globs }

namespace Generation

/-- A run that finds all it needs: a root, its exclusions, and files that can be taken. -/
structure Ready (options : RunOptions) (t : FileTree) (root : Path) (exclude : List Glob.Pattern)
    (files : List ResolvedFile) : Prop where
  root_eq : canonicalRoot t options.root = .ok root
  exclude_eq : compileExcludes options.exclude = .ok exclude
  files_eq : resolve t root options.globs exclude = .ok files
  takable : ∀ f ∈ files, Takable t f

section

variable {options : RunOptions} {t u : FileTree} {root : Path} {above : Location}
  {exclude : List Glob.Pattern} {files done : List ResolvedFile}

theorem targets_of_resolve (hroot : IsRoot t root above) (hfree : t.LinkFreeBelow above)
    {patterns : List String} (h : resolve t root patterns exclude = .ok files) :
    Targets t above files :=
  ⟨hroot.isDirectory, hfree, fun _ hf => isTarget_of_mem_resolve hroot hfree h hf⟩

theorem exists_ready (options : RunOptions) (hfree : LinkFreeUnder t options.root)
    (hdry : options.dryRun = false) {report : Report} (h : (run options t).result = .ok report) :
    ∃ root exclude files, Ready options t root exclude files := by
  cases run_cases options t with
  | inl hfail =>
    have ⟨e, he, _⟩ := hfail
    rw [he] at h
    contradiction
  | inr htakes =>
    have ⟨root, exclude, files, hroot, hexclude, hfiles, htakes⟩ := htakes
    have ⟨above, hisRoot⟩ := isRoot_of_canonicalRoot hroot
    have ⟨taken, reports, failure, _, hfine, _, hends, hresult⟩ :=
      htakes.ends hisRoot (hfree root above hroot hisRoot.spells) hfiles
    cases failure with
    | some e =>
      rw [hresult] at h
      contradiction
    | none =>
      obtain rfl : files = taken := hends
      rw [hdry] at hfine
      exact ⟨root, exclude, files, hroot, hexclude, hfiles,
        fun f hf => (takable_iff options.context).mpr (hfine f hf)⟩

/-- A run that finds all it needs succeeds. -/
theorem Ready.run_ok (h : Ready options t root exclude files) (hroot : IsRoot t root above)
    (hfree : t.LinkFreeBelow above) (hdry : options.dryRun = false)
    (hstrict : options.strict = false) :
    ∃ reports, (run options t).result =
        .ok ⟨reports, false, collisions options.context.domain files⟩ ∧
      List.Forall₂ (Reports options.context t) files reports ∧
      WithSidecars options.context t files (run options t).tree := by
  have ⟨hresult, htree⟩ := run_eq_ofFiles h.root_eq h.exclude_eq h.files_eq
  have htakes : Takes options t files (run options t).result (run options t).tree := by
    rw [hresult, htree]
    exact takes_ofFiles options (.inl hstrict) t
  have ⟨taken, reports, failure, hreports, _, hwith, hends, hresult⟩ :=
    htakes.ends hroot hfree h.files_eq
  cases failure with
  | some e =>
    have ⟨f, rest, hsplit, hfails⟩ := hends
    rw [hdry] at hfails
    exact absurd hfails ((takable_iff options.context).mp (h.takable f (by simp [hsplit])) e)
  | none =>
    obtain rfl : files = taken := hends
    rw [hdry] at hwith
    rw [resultOf, hdry] at hresult
    exact ⟨reports, hresult, hreports, hwith⟩

/-- Sidecars neither give nor take what a run by patterns that do not go up needs. -/
theorem ready_iff_of_withSidecars (options : RunOptions) {ctx : RecordContext}
    (hu : WithSidecars ctx t done u) (hdone : Targets t above done)
    (hcanonical : canonicalRoot t options.root = .ok root)
    (hroot : IsRoot t root above) (hglobs : ∀ p ∈ options.globs, Glob.StaysDown p) :
    Ready options u root exclude files ↔ Ready options t root exclude files := by
  have hgains := hu.gainsSidecars hdone
  have hcanonical' := hgains.grows.canonicalRoot hu.workingDirectory hcanonical
  have hresolve := resolve_eq_of_gainsSidecars hgains hroot hdone.linkFree hglobs exclude
  have htakable (hfiles : resolve t root options.globs exclude = .ok files) :
      ∀ f ∈ files, Takable u f ↔ Takable t f := by
    have hall := hdone.append (targets_of_resolve hroot hdone.linkFree hfiles)
    exact fun f hf => takable_iff_of_growsTo hgains.grows (hall.right.isAbsolute f hf)
      (hu.read_eq hall hf)
  refine ⟨fun h => ?_, fun h => ?_⟩
  · have hfiles := hresolve ▸ h.files_eq
    exact ⟨hcanonical, h.exclude_eq, hfiles,
      fun f hf => (htakable hfiles f hf).mp (h.takable f hf)⟩
  · exact ⟨hcanonical', h.exclude_eq, hresolve.trans h.files_eq,
      fun f hf => (htakable h.files_eq f hf).mpr (h.takable f hf)⟩

/-- Reports of files whose bytes are the same are the same. -/
theorem reports_unique {ctx : RecordContext} {first second : List ProcessedFile}
    (hfirst : List.Forall₂ (Reports ctx t) files first)
    (hsecond : List.Forall₂ (Reports ctx u) files second)
    (hread : ∀ f ∈ files, u.read f.path = t.read f.path) : second = first := by
  induction hfirst generalizing second with
  | nil => cases hsecond; rfl
  | @cons file p files first hp _ ih =>
    cases hsecond with
    | @cons _ q _ second hq hrest =>
      have ⟨content, hold, hp⟩ := hp
      have ⟨bytes, hnew, hq⟩ := hq
      rw [hread file List.mem_cons_self, hold] at hnew
      obtain rfl := Except.ok.inj hnew
      rw [hp, hq, ih hrest fun f hf => hread f (List.mem_cons_of_mem _ hf)]

/-- A run succeeds with a report and leaves a tree. -/
def Succeeds (options : RunOptions) (t : FileTree) (report : Report) (u : FileTree) : Prop :=
  (run options t).result = .ok report ∧ (run options t).tree = u

/-- A run succeeds and leaves the entries of a tree. -/
def Leaves (options : RunOptions) (t v : FileTree) : Prop :=
  ∃ report w, Succeeds options t report w ∧ w.SameEntries v

/-- One run by two lists of patterns leaves the sidecars of what they select. -/
theorem leaves_append {ps qs : List String} {more : List ResolvedFile} {v : FileTree}
    (hfiles : Ready (options.withGlobs ps) t root exclude files)
    (hmore : Ready (options.withGlobs qs) t root exclude more)
    (hroot : IsRoot t root above) (hfree : t.LinkFreeBelow above) (hdry : options.dryRun = false)
    (hstrict : options.strict = false) (hv : WithSidecars options.context t done v)
    (hdone : ∀ f, f ∈ done ↔ f ∈ files ++ more) :
    Leaves (options.withGlobs (ps ++ qs)) t v := by
  have ⟨both, hboth, honly, hall⟩ := resolve_append hroot.spells hfiles.files_eq hmore.files_eq
  have htakable : ∀ f, f ∈ files ∨ f ∈ more → Takable t f :=
    fun f hf => hf.elim (hfiles.takable f) (hmore.takable f)
  have hready : Ready (options.withGlobs (ps ++ qs)) t root exclude both :=
    ⟨hfiles.root_eq, hfiles.exclude_eq, hboth, fun f hf => htakable f (honly f hf)⟩
  have ⟨_, hresult, _, hwith⟩ := hready.run_ok hroot hfree hdry hstrict
  have htargets := (targets_of_resolve hroot hfree hfiles.files_eq).append
    (targets_of_resolve hroot hfree hmore.files_eq)
  have honly : both ⊆ files ++ more := fun f hf => List.mem_append.mpr (honly f hf)
  have hdone' : done ⊆ files ++ more := fun f hf => (hdone f).mp hf
  refine ⟨_, _, ⟨hresult, rfl⟩, hwith.sameEntries hv
    ((htargets.of_subset honly).append (htargets.of_subset hdone')) (fun f hf => ?_) fun f hf => ?_⟩
  · exact ⟨f, (hdone f).mpr (honly hf), rfl⟩
  · have hmem := List.mem_append.mp (hdone' hf)
    have ⟨names, hnames⟩ := htargets.isTarget f (hdone' hf)
    have ⟨content, hread⟩ := (htakable f hmem).1
    have hfreeAlong := hfree.along hroot.isDirectory names.reverse
    -- What has been read is no directory, by whatever spelling.
    refine hall f hmem fun p hp =>
      FileTree.isDirectory_eq_false (Eq.trans hp hnames.spells) hfreeAlong ?_
    rw [FileTree.get?_of_read hnames.spells hfreeAlong hread]
    simp

/-- A run that succeeded succeeds again and changes nothing. If another run succeeds after it, one
run by the patterns of both, in either order, succeeds at the start and leaves the same tree. -/
theorem runs_compose (options : RunOptions) {ps : List String} {first : Report}
    (hfree : LinkFreeUnder t options.root) (hdry : options.dryRun = false)
    (hstrict : options.strict = false) (hps : ∀ p ∈ ps, Glob.StaysDown p)
    (hfirst : Succeeds (options.withGlobs ps) t first u) :
    (∃ w, Succeeds (options.withGlobs ps) u first w ∧ w.SameEntries u) ∧
    ∀ qs second v, (∀ q ∈ qs, Glob.StaysDown q) → Succeeds (options.withGlobs qs) u second v →
      Leaves (options.withGlobs (ps ++ qs)) t v ∧ Leaves (options.withGlobs (qs ++ ps)) t v := by
  obtain ⟨hfirst, rfl⟩ := hfirst
  have ⟨root, exclude, files, hready⟩ :=
    exists_ready (options.withGlobs ps) hfree hdry hfirst
  have ⟨above, hroot⟩ := isRoot_of_canonicalRoot hready.root_eq
  have hbelow := hfree root above hready.root_eq hroot.spells
  have htargets := targets_of_resolve hroot hbelow hready.files_eq
  have ⟨reports, hresult, hreports, hwith⟩ := hready.run_ok hroot hbelow hdry hstrict
  obtain rfl := Except.ok.inj (hresult.symm.trans hfirst)
  have hgrows := (hwith.gainsSidecars htargets).grows
  have hroot' := hgrows.isRoot hroot
  have hbelow' := hgrows.linkFreeBelow hbelow
  refine ⟨?_, fun qs second v hqs hsecond => ?_⟩
  · have hagain := (ready_iff_of_withSidecars _ hwith htargets hready.root_eq hroot hps).mpr hready
    have ⟨reports', hresult', hreports', hwith'⟩ := hagain.run_ok hroot' hbelow' hdry hstrict
    have htwice := htargets.append htargets
    rw [reports_unique hreports hreports' fun f hf => hwith.read_eq htwice hf] at hresult'
    refine ⟨_, ⟨hresult', rfl⟩, ?_⟩
    refine (hwith.trans hwith' htwice).sameEntries hwith (htwice.append htargets) ?_ ?_
    · exact fun f hf => ⟨f, (List.mem_append.mp hf).elim id id, rfl⟩
    · exact fun f hf => ⟨f, List.mem_append_left _ hf, rfl⟩
  · obtain ⟨hsecond, rfl⟩ := hsecond
    have hcanonical := hgrows.canonicalRoot hwith.workingDirectory hready.root_eq
    have hfree' : LinkFreeUnder (run (options.withGlobs ps) t).tree options.root := by
      intro other location hother hspells
      obtain rfl := Except.ok.inj (hother.symm.trans hcanonical)
      exact hspells.unique hroot.spells ▸ hbelow'
    have ⟨other, excluded, more, hlater⟩ :=
      exists_ready (options.withGlobs qs) hfree' hdry hsecond
    obtain rfl := Except.ok.inj (hlater.root_eq.symm.trans hcanonical)
    obtain rfl := Except.ok.inj (hlater.exclude_eq.symm.trans hready.exclude_eq)
    have ⟨_, _, _, hwith'⟩ := hlater.run_ok hroot' hbelow' hdry hstrict
    have hmore := (ready_iff_of_withSidecars (options.withGlobs qs) hwith htargets
      hready.root_eq hroot hqs).mp hlater
    have hboth := htargets.append (targets_of_resolve hroot hbelow hmore.files_eq)
    have hdone := hwith.trans hwith' hboth
    refine ⟨leaves_append hready hmore hroot hbelow hdry hstrict hdone fun f => Iff.rfl, ?_⟩
    refine leaves_append hmore hready hroot hbelow hdry hstrict hdone fun f => ?_
    rw [List.mem_append, List.mem_append, or_comm]

theorem resolve_star_oneFile : resolve FileTree.oneFile ⟨"/"⟩ ["*"] [] = .ok [onlyFile] := by
  have hlist : FileTree.oneFile.list ⟨"/"⟩ = .ok [("a", .file "x".toUTF8)] := by cbv
  have hexpand : expand FileTree.oneFile false (.at FileTree.oneFile ⟨"/"⟩) [⟨"*", [.run]⟩] =
      [.ok ⟨"/a"⟩] := by
    rw [expand_wildcard rfl (by cbv) hlist]
    simp only [expandDots, expandInto, expand_nil, List.flatMap_cons, List.flatMap_nil]
    cbv
  have hpaths : Selection.pathsOf FileTree.oneFile (⟨"/"⟩ : Path) "*" = .ok [⟨"/a"⟩] := by
    have hroute : Route.parse (underRoot (⟨"/"⟩ : Path) "*") =
        .ok ⟨[⟨"*", [.run]⟩], false⟩ := by
      cbv
    rw [Selection.pathsOf, hroute]
    simp only [Except.mapError, bind, Except.bind, Route.paths, hexpand]
    cbv
  have hsteps : Selection.stepsOf FileTree.oneFile (⟨"/"⟩ : Path) "*" =
      ([.found onlyFile], none) := by
    rw [Selection.stepsOf, hpaths]
    cbv
  refine resolve_eq_ok_iff.mpr ⟨[.found onlyFile], ?_, by cbv⟩
  rw [Selection.survey, hsteps]
  rfl

theorem ready_oneFile {p : String} (h : resolve FileTree.oneFile ⟨"/"⟩ [p] [] = .ok [onlyFile]) :
    Ready (onlyFileRun.withGlobs [p]) FileTree.oneFile ⟨"/"⟩ [] [onlyFile] := by
  refine ⟨by cbv, rfl, h, fun f hf => ?_⟩
  obtain rfl := List.mem_singleton.mp hf
  exact ⟨⟨"x".toUTF8, by cbv⟩, _, locate_onlyFile (.inl (by decide)), by decide⟩

theorem runs_compose_oneFile : ∃ first u second v,
    Succeeds (onlyFileRun.withGlobs ["a"]) FileTree.oneFile first u ∧
    Succeeds (onlyFileRun.withGlobs ["*"]) u second v ∧
    (∃ w, Succeeds (onlyFileRun.withGlobs ["a"]) u first w ∧ w.SameEntries u) ∧
    Leaves (onlyFileRun.withGlobs (["a"] ++ ["*"])) FileTree.oneFile v ∧
    Leaves (onlyFileRun.withGlobs (["*"] ++ ["a"])) FileTree.oneFile v := by
  have hroot : IsRoot FileTree.oneFile ⟨"/"⟩ [] := ⟨rfl, rfl, by decide⟩
  have hfree : FileTree.oneFile.LinkFreeBelow [] := FileTree.linkFree_oneFile.below []
  have hname : ∀ p ∈ ["a"], Glob.StaysDown p := by
    have hpieces : Text.piecesOf '/' "a" = ["a"] := by decide
    simpa using ⟨by simp [hpieces], by simp [hpieces]⟩
  have hstar : ∀ p ∈ ["*"], Glob.StaysDown p := by
    have hpieces : Text.piecesOf '/' "*" = ["*"] := by decide
    simpa using ⟨by simp [hpieces], by simp [hpieces]⟩
  have hfirst : Ready (onlyFileRun.withGlobs ["a"]) _ _ _ _ := ready_oneFile (by cbv)
  have htargets := targets_of_resolve hroot hfree hfirst.files_eq
  obtain ⟨_, hresult, _, hwith⟩ := hfirst.run_ok hroot hfree rfl rfl
  have hgrows := (hwith.gainsSidecars htargets).grows
  have hsecond := (ready_iff_of_withSidecars (onlyFileRun.withGlobs ["*"]) hwith htargets
    hfirst.root_eq hroot hstar).mpr (ready_oneFile resolve_star_oneFile)
  obtain ⟨_, hresult', _⟩ :=
    hsecond.run_ok (hgrows.isRoot hroot) (hgrows.linkFreeBelow hfree) rfl rfl
  obtain ⟨hagain, hboth⟩ := runs_compose onlyFileRun
    (fun _ _ _ _ => FileTree.linkFree_oneFile.below _) rfl rfl hname ⟨hresult, rfl⟩
  exact ⟨_, _, _, _, ⟨hresult, rfl⟩, ⟨hresult', rfl⟩, hagain,
    hboth ["*"] _ _ hstar ⟨hresult', rfl⟩⟩

end

end Generation

end Sidecar
