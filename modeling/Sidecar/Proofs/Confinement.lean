import Sidecar.Proofs.Stages

/-! Where a run writes. The paths of the files that it takes lie below the root as texts; where no
link leads out of the root, so do the places that it writes to. -/

namespace Sidecar

namespace FileTree

/-- No link below a directory leads out of it, be it followed on the way or at the end of a path. -/
def LinksStayBelow (t : FileTree) (above : Location) : Prop :=
  ∀ name dir target, above <:+ dir → t.get? (name :: dir) = some (.link target) →
    ∀ ending links loc,
      t.Leads ending links (startOf target dir) (Path.segments ⟨target⟩) loc → above <:+ loc

section

variable {t : FileTree} {ending : Ending} {above loc : Location}

/-- A walk that starts below a directory and does not go up stays below. -/
theorem LinksStayBelow.suffix_of_leads (hstay : t.LinksStayBelow above) {links : Nat}
    {place : Location} {segments : List String} (hplace : above <:+ place) (hup : ".." ∉ segments)
    (h : t.Leads ending links place segments loc) : above <:+ loc := by
  induction segments generalizing links place with
  | nil =>
    cases h
    exact hplace
  | cons s rest ih =>
    rw [List.mem_cons, not_or] at hup
    have hbelow : above <:+ s :: place := hplace.trans (List.suffix_cons s place)
    cases h with
    | void _ h => exact ih hplace hup.2 h
    | up => exact absurd rfl hup.1
    | down _ _ _ h => exact ih hbelow hup.2 h
    | file | fresh | link => exact hbelow
    | follow _ _ _ hlink h =>
      by_cases hrest : rest = []
      · rw [hrest, List.append_nil] at h
        exact hstay _ _ _ hplace hlink _ _ _ h
      · have ⟨mid, more, hmid, hloc⟩ := h.split hrest
        exact ih (hstay _ _ _ hplace hlink _ _ _ hmid) hup.2 hloc

/-- A path leads through the directories that it spells first. -/
theorem leads_below {p : Path} {below : Location} (hp : p.Spells (below ++ above))
    (hbelow : below ≠ []) (hdir : t.get? above = some .directory)
    (h : t.Leads ending maxLinks [] p.segments loc) :
    ∃ segments, ".." ∉ segments ∧ t.Leads ending maxLinks above segments loc := by
  obtain ⟨_, hup, hplain⟩ := Path.spells_iff.mp hp
  rw [List.reverse_append, Path.plain, List.filter_eq_append_iff] at hplain
  obtain ⟨xs, ys, hsegments, hxs, hys⟩ := hplain
  rw [hsegments] at hup
  have hplace : (Path.plain xs).reverse ++ [] = above := by
    rw [Path.plain, hxs, List.reverse_reverse, List.append_nil]
  have hnamed : ∃ y ∈ ys, y ≠ "" := by
    obtain ⟨n, more, hn⟩ := List.exists_cons_of_ne_nil (List.reverse_ne_nil_iff.mpr hbelow)
    have hmem : n ∈ ys.filter fun s => s ≠ "" ∧ s ≠ "." := by
      rw [hys, hn]
      exact List.mem_cons_self
    obtain ⟨hin, hvoid⟩ := List.mem_filter.mp hmem
    exact ⟨n, hin, (of_decide_eq_true hvoid).1⟩
  refine ⟨ys, fun hmem => hup (List.mem_append_right _ hmem), ?_⟩
  rw [← walk_eq_ok_iff] at h ⊢
  rw [hsegments, walk_append maxLinks (hplace.symm ▸ hdir)
    (fun hmem => hup (List.mem_append_left _ hmem)) (.inr hnamed), hplace] at h
  exact h

end

end FileTree

namespace Generation

open FileTree

section

variable {ctx : RecordContext} {t u : FileTree} {files : List ResolvedFile}
  {reports : List ProcessedFile} {failure : Option Failure}

theorem tree_of_processAll_dryRun (h : processAll ctx true t files = (reports, u, failure)) :
    u = t := by
  induction files generalizing reports with
  | nil =>
    rw [processAll_nil, Prod.mk.injEq, Prod.mk.injEq] at h
    exact h.2.1.symm
  | cons file files ih =>
    cases hread : t.read file.path with
    | error =>
      rw [processAll_of_error (process_of_unreadable hread), Prod.mk.injEq, Prod.mk.injEq] at h
      exact h.2.1.symm
    | ok content =>
      obtain ⟨⟨more, v, failure'⟩, hrest⟩ : ∃ x, processAll ctx true t files = x := ⟨_, rfl⟩
      rw [processAll_of_ok (process_dryRun hread) hrest, Prod.mk.injEq, Prod.mk.injEq] at h
      obtain ⟨rfl, rfl, rfl⟩ := h
      exact ih hrest

/-- What changes while files are taken is a file where the sidecar of one of them goes. -/
theorem Stages.exists_of_changed (h : Stages ctx t files reports u)
    (habs : ∀ f ∈ files, (sidecarPath f.path).isAbsolute = true) {loc : Location}
    (hloc : u.get? loc ≠ t.get? loc) :
    ∃ file ∈ files, GoesTo t file loc ∧ (∃ content, u.get? loc = some (.file content)) ∧
      ∃ (v : FileTree) (content : ByteArray), v.read file.path = .ok content := by
  cases h.get?_eq habs loc with
  | inl hkept => exact absurd hkept.2 hloc
  | inr hwritten =>
    have ⟨file, hfile, hgoes, content, hget⟩ := hwritten
    have ⟨k, hk⟩ := List.getElem?_of_mem hfile
    have ⟨v, old, _, _, hread, _⟩ := h.at hk
    exact ⟨file, hfile, hgoes, ⟨_, hget⟩, v, old, hread⟩

end

/-- Whether or not a run succeeds, all that it makes or changes are files where the sidecars of
resolved files go. The files lie below the root by the text of their paths, and the places lie below
it if no link there leads out. -/
theorem changes_of_run (options : RunOptions) (t : FileTree) {loc : Location}
    (h : (run options t).tree.get? loc ≠ t.get? loc) :
    ∃ root above exclude files file names, canonicalRoot t options.root = .ok root ∧
      root = ⟨pathOf above⟩ ∧ compileExcludes options.exclude = .ok exclude ∧
      resolve t root options.globs exclude = .ok files ∧ file ∈ files ∧
      file.path.Spells (names.reverse ++ above) ∧ names ≠ [] ∧ GoesTo t file loc ∧
      (∃ content, (run options t).tree.get? loc = some (.file content)) ∧
      (t.LinksStayBelow above → above <:+ loc ∧ loc ≠ above) := by
  cases run_cases options t with
  | inl hfail =>
    have ⟨_, _, _, htree⟩ := hfail
    rw [htree] at h
    contradiction
  | inr htakes =>
    have ⟨root, exclude, files, hroot, hexclude, hfiles, reports, failure, hrun, _⟩ := htakes
    have ⟨above, hisRoot⟩ := isRoot_of_canonicalRoot hroot
    cases hdry : options.dryRun with
    | true =>
      rw [hdry] at hrun
      exact absurd (congrArg (·.get? loc) (tree_of_processAll_dryRun hrun)) h
    | false =>
      rw [hdry] at hrun
      have ⟨taken, hstages, htaken, _⟩ := stages_of_processAll hrun
      have habs : ∀ f ∈ taken, (sidecarPath f.path).isAbsolute = true := fun f hf =>
        isAbsolute_sidecarPath_of_mem_resolve hisRoot hfiles f (htaken.subset hf)
      have ⟨file, hmem, hgoes, hfile, v, content, hread⟩ := hstages.exists_of_changed habs h
      have hin := htaken.subset hmem
      have ⟨names, hnames⟩ := liesUnder_of_mem_resolve hisRoot hfiles hin
      have hne := hnames.ne_nil hisRoot (finds_of_mem_resolve hfiles hin).2.1 hread
      refine ⟨root, above, exclude, files, file, names, hroot, hisRoot.eq_pathOf, hexclude, hfiles,
        hin, hnames.spells, hne, hgoes, hfile, fun hstay => ⟨?_, ?_⟩⟩
      · have hspells := hnames.sidecar hne
        have ⟨_, hleads⟩ := (locate_eq_ok_iff hspells.isAbsolute).mp hgoes
        have ⟨segments, hup, hbelow⟩ := leads_below hspells
          (sidecarLocation_ne_nil (List.reverse_ne_nil_iff.mpr hne)) hisRoot.isDirectory hleads
        exact hstay.suffix_of_leads (List.suffix_refl above) hup hbelow
      · rintro rfl
        exact (hstages.grows habs).not_directory h hisRoot.isDirectory

theorem run_tree_eq {options : RunOptions} {t u : FileTree} {root : Path}
    {exclude : List Glob.Pattern} {files : List ResolvedFile} {reports : List ProcessedFile}
    {failure : Option Failure} (hroot : canonicalRoot t options.root = .ok root)
    (hexclude : compileExcludes options.exclude = .ok exclude)
    (hfiles : resolve t root options.globs exclude = .ok files) (hstrict : options.strict = false)
    (hrun : processAll options.context options.dryRun t files = (reports, u, failure)) :
    (run options t).tree = u := by
  rw [(run_eq_ofFiles hroot hexclude hfiles).2]
  unfold ofFiles
  simp only [hstrict, hrun]

/-! A run whose one file is reached through a link below the root. -/

/-- Two directories with a file each, one of them below the root, and a link beside that one. -/
def rootedTree (target : String) : FileTree :=
  (((((FileTree.empty.put ["o"] .directory (by decide)).put ["a", "o"] (.file "x".toUTF8)
    (by decide)).put ["r"] .directory (by decide)).put ["d", "r"] .directory (by decide)).put
    ["a", "d", "r"] (.file "x".toUTF8) (by decide)).put ["l", "r"] (.link target) (by decide)

def throughLink : ResolvedFile :=
  ⟨⟨"/r/l/a"⟩, "l/a"⟩

def rootedRun : RunOptions :=
  { onlyFileRun with root := ⟨"/r"⟩, globs := ["l/a"] }

section

variable {target : String}

theorem isRoot_rootedTree (target : String) : IsRoot (rootedTree target) ⟨"/r"⟩ ["r"] where
  eq_pathOf := by decide
  isDirectory := rfl
  short := by decide

/-- The link is found as it is, the file where it leads. -/
theorem pathsOf_rootedTree
    (hfile : (rootedTree target).find .target throughLink.path = .ok (.file "x".toUTF8)) :
    Selection.pathsOf (rootedTree target) (⟨"/r"⟩ : Path) "l/a" = .ok [throughLink.path] := by
  have hr : (⟨"/"⟩ : Path).child "r" = ⟨"/r"⟩ := by decide
  have hl : (⟨"/r"⟩ : Path).child "l" = ⟨"/r/l"⟩ := by decide
  have ha : (⟨"/r/l"⟩ : Path).child "a" = throughLink.path := by decide
  have hroot : (rootedTree target).find .target ⟨"/r"⟩ = .ok .directory := by cbv
  have hlink : (rootedTree target).find .entry ⟨"/r/l"⟩ = .ok (.link target) := by cbv
  have hexpand : Glob.expand (rootedTree target) false (.at (rootedTree target) ⟨"/"⟩)
      [⟨"r", [.literal 'r']⟩, ⟨"l", [.literal 'l']⟩, ⟨"a", [.literal 'a']⟩] =
        [.ok throughLink.path] := by
    have hr' : (⟨"r", [.literal 'r']⟩ : Glob.Pattern).literal? = some "r" := by decide
    have hl' : (⟨"l", [.literal 'l']⟩ : Glob.Pattern).literal? = some "l" := by decide
    have ha' : (⟨"a", [.literal 'a']⟩ : Glob.Pattern).literal? = some "a" := by decide
    rw [Glob.expand_literal hr', Glob.Place.path_at, hr, if_pos, Glob.expand_literal hl',
      Glob.Place.path_at, hl, if_pos, Glob.expand_literal ha', Glob.Place.path_at, ha, if_pos,
      Glob.expand_nil]
    · rfl
    · simp [Glob.Place.leadsTo, Glob.isThere, ha, hfile, Except.isOk, Except.toBool]
    · simp [Glob.Place.leadsTo, Glob.isThere, hl, hlink, Except.isOk, Except.toBool]
    · simp [Glob.Place.leadsTo, Glob.isThere, hr, hroot, Except.isOk, Except.toBool]
  have hparse : Glob.Route.parse "/r/l/a" =
      .ok ⟨[⟨"r", [.literal 'r']⟩, ⟨"l", [.literal 'l']⟩, ⟨"a", [.literal 'a']⟩], false⟩ := by
    cbv
  rw [Selection.pathsOf, show Glob.underRoot (⟨"/r"⟩ : Path) "l/a" = "/r/l/a" by decide, hparse]
  simp [Glob.Route.paths, hexpand, Except.mapError, Except.map, bind, Except.bind, pure,
    Except.pure]

theorem resolve_rootedTree
    (hfile : (rootedTree target).find .target throughLink.path = .ok (.file "x".toUTF8)) :
    resolve (rootedTree target) ⟨"/r"⟩ rootedRun.globs [] = .ok [throughLink] := by
  have hdir : (rootedTree target).isDirectory throughLink.path = false := by
    rw [isDirectory, hfile]
    rfl
  have hrel : relativePath ⟨"/r"⟩ throughLink.path = .ok throughLink.relPath := by decide
  have hside : isSidecar throughLink.path = false := by decide
  simp [resolve, resolveUnder, rootedRun, Selection.survey, Selection.stepsOf,
    pathsOf_rootedTree hfile, Selection.filesOf, relativePath_inBytes, hrel, Selection.decisions,
    Selection.judge, hdir, hside, Selection.Decision.selected?]

/-- The sidecar goes where the link leads. -/
theorem goesTo_rootedTree {loc : Location} (h : (rootedTree target).Leads .newFile 39
    (startOf target ["r"]) (Path.segments ⟨target⟩ ++ ["a.metadata.json"]) loc) :
    GoesTo (rootedTree target) throughLink loc := by
  have hside : sidecarPath throughLink.path = ⟨"/r/l/a.metadata.json"⟩ := by decide
  have habs : (⟨"/r/l/a.metadata.json"⟩ : Path).isAbsolute = true := by decide
  have hsegments : (⟨"/r/l/a.metadata.json"⟩ : Path).segments =
      ["", "r", "l", "a.metadata.json"] := by
    decide
  have hr : IsName "r" := ⟨by decide, by decide, by decide⟩
  have hl : IsName "l" := ⟨by decide, by decide, by decide⟩
  rw [GoesTo, hside, locate_eq_ok_iff habs, hsegments]
  exact ⟨⟨by decide, by decide⟩, .void (.inl rfl) <|
    .down hr (by simp [MayFollow]) rfl <| .follow hl (by simp [MayFollow]) (by simp) rfl h⟩

theorem changed_rootedTree {loc : Location}
    (hfile : (rootedTree target).find .target throughLink.path = .ok (.file "x".toUTF8))
    (hgoes : GoesTo (rootedTree target) throughLink loc)
    (hnone : (rootedTree target).get? loc = none) (accepts : (rootedTree target).Accepts loc) :
    (run rootedRun (rootedTree target)).tree.get? loc ≠ (rootedTree target).get? loc := by
  have hread : (rootedTree target).read throughLink.path = .ok "x".toUTF8 := by
    rw [FileTree.read, hfile]
    rfl
  have hwrite := write_of_locate hgoes accepts
    (sidecarBytes rootedRun.context throughLink "x".toUTF8)
  have hroot : canonicalRoot (rootedTree target) rootedRun.root = .ok ⟨"/r"⟩ :=
    (isRoot_rootedTree target).canonicalRoot_eq
  have htree := run_tree_eq hroot rfl (resolve_rootedTree hfile) rfl
    (processAll_of_ok (process_of_written hread hwrite) (processAll_nil ..))
  rw [htree, get?_put_self, hnone]
  simp

end

theorem isName_sidecar : IsName "a.metadata.json" :=
  ⟨by decide, by decide, by decide⟩

/-- A link to the directory beside it. -/
theorem changed_inside : (run rootedRun (rootedTree "d")).tree.get? ["a.metadata.json", "d", "r"] ≠
    (rootedTree "d").get? ["a.metadata.json", "d", "r"] := by
  have hd : IsName "d" := ⟨by decide, by decide, by decide⟩
  have hsegments : (⟨"d"⟩ : Path).segments = ["d"] := by decide
  refine changed_rootedTree (by cbv) (goesTo_rootedTree ?_) rfl (by decide)
  rw [hsegments]
  exact .down hd (by simp [MayFollow]) rfl (.fresh isName_sidecar rfl rfl)

theorem linksStayBelow_rootedTree : (rootedTree "d").LinksStayBelow ["r"] := by
  intro name dir target _ hlink ending links loc h
  have hd : IsName "d" := ⟨by decide, by decide, by decide⟩
  have hsegments : (⟨"d"⟩ : Path).segments = ["d"] := by decide
  have hother (l : Location) (hne : l ≠ ["l", "r"]) (other : String) :
      (rootedTree "d").get? l ≠ some (.link other) := by
    rw [rootedTree, get?_put_of_ne _ hne]
    exact (((((linkFree_empty.put (by simp) _).put (by simp) _).put (by simp) _).put
      (by simp) _).put (by simp) _) l other
  have hplace : name :: dir = ["l", "r"] :=
    Decidable.byContradiction fun hne => hother _ hne _ hlink
  rw [hplace] at hlink
  obtain ⟨rfl, rfl⟩ := List.cons.inj hplace
  obtain rfl : "d" = target := Entry.link.inj (Option.some.inj hlink)
  rw [hsegments] at h
  rw [h.eq_of_directory hd rfl]
  decide

/-- What a run writes through a link to the directory beside it stays below the root. -/
theorem changes_of_run_rootedTree :
    (run rootedRun (rootedTree "d")).tree.get? ["a.metadata.json", "d", "r"] ≠
      (rootedTree "d").get? ["a.metadata.json", "d", "r"] ∧
    (rootedTree "d").LinksStayBelow ["r"] ∧
    ∃ root above exclude files file names,
      canonicalRoot (rootedTree "d") rootedRun.root = .ok root ∧
      root = ⟨pathOf above⟩ ∧ compileExcludes rootedRun.exclude = .ok exclude ∧
      resolve (rootedTree "d") root rootedRun.globs exclude = .ok files ∧ file ∈ files ∧
      file.path.Spells (names.reverse ++ above) ∧ names ≠ [] ∧
      GoesTo (rootedTree "d") file ["a.metadata.json", "d", "r"] ∧
      (∃ content, (run rootedRun (rootedTree "d")).tree.get? ["a.metadata.json", "d", "r"] =
        some (.file content)) ∧
      ((rootedTree "d").LinksStayBelow above →
        above <:+ ["a.metadata.json", "d", "r"] ∧ ["a.metadata.json", "d", "r"] ≠ above) :=
  ⟨changed_inside, linksStayBelow_rootedTree,
    changes_of_run rootedRun (rootedTree "d") changed_inside⟩

/-- A link to the directory beside the root. -/
theorem changed_beside : (run rootedRun (rootedTree "../o")).tree.get? ["a.metadata.json", "o"] ≠
    (rootedTree "../o").get? ["a.metadata.json", "o"] := by
  have ho : IsName "o" := ⟨by decide, by decide, by decide⟩
  have hsegments : (⟨"../o"⟩ : Path).segments = ["..", "o"] := by decide
  refine changed_rootedTree (by cbv) (goesTo_rootedTree ?_) rfl (by decide)
  rw [hsegments]
  exact .up (.down ho (by simp [MayFollow]) rfl (.fresh isName_sidecar rfl rfl))

/-- What is written through a link lies where the link leads, which may be beside the root. -/
theorem not_below_rootedTree :
    ¬∀ (options : RunOptions) (t : FileTree) (loc : Location),
      (run options t).tree.get? loc ≠ t.get? loc →
        ∀ above, canonicalRoot t options.root = .ok ⟨pathOf above⟩ → above <:+ loc := by
  intro hall
  have hroot := (isRoot_rootedTree "../o").canonicalRoot_eq
  have hbelow := hall rootedRun (rootedTree "../o") _ changed_beside ["r"] hroot
  exact absurd hbelow (by decide)

end Generation

end Sidecar
