import Sidecar.Proofs.Generation
import Sidecar.Proofs.Grouping

/-! Shared content ids. A strict run fails before it takes a file exactly if two files share an id,
and names the id that is the first to be shared; otherwise it does what a run does that is not
strict. -/

namespace Sidecar

def RunOptions.withStrict (options : RunOptions) (strict : Bool) : RunOptions :=
  { options with strict }

namespace Generation

theorem findSome?_filter_eq {α β : Type} {f : α → Option β} {q : α → Bool} {xs : List α}
    (h : ∀ x ∈ xs, q x = false → f x = none) : (xs.filter q).findSome? f = xs.findSome? f := by
  induction xs with
  | nil => rfl
  | cons x xs ih =>
    have ih := ih fun y hy => h y (List.mem_cons_of_mem _ hy)
    cases hx : q x with
    | true => rw [List.filter_cons_of_pos hx, List.findSome?_cons, List.findSome?_cons, ih]
    | false =>
      rw [List.filter_cons_of_neg (by simp [hx]), List.findSome?_cons, h x List.mem_cons_self hx,
        ih]

/-- What is found first is found without the repetitions as well. -/
theorem findSome?_eraseDups {β : Type} (f : String → Option β) (xs : List String) :
    xs.eraseDups.findSome? f = xs.findSome? f := by
  match xs with
  | [] => rfl
  | x :: xs =>
    have hshort : (xs.filter fun y => !y == x).length ≤ xs.length := List.length_filter_le _ _
    rw [List.eraseDups_cons, List.findSome?_cons, List.findSome?_cons]
    cases hx : f x with
    | some b => rfl
    | none =>
      rw [findSome?_eraseDups f]
      exact findSome?_filter_eq fun y _ hy => by simp_all
  termination_by xs.length
  decreasing_by
    simp only [List.length_cons]
    omega

section

variable {d : Domain} {files : List ResolvedFile} {id : String}

/-- The first collision is that of the first file that shares its id. -/
theorem head?_collisions (d : Domain) (files : List ResolvedFile) :
    (collisions d files).head? = files.findSome? fun f =>
      if 1 < (pathsOfId d files (idOf d f)).length then
        some ⟨idOf d f, pathsOfId d files (idOf d f)⟩
      else none := by
  rw [collisions_eq, List.head?_filterMap, findSome?_eraseDups, List.findSome?_map]
  rfl

theorem one_lt_length_iff {α : Type} {xs : List α} (h : xs.Nodup) :
    1 < xs.length ↔ ∃ a ∈ xs, ∃ b ∈ xs, a ≠ b := by
  match xs with
  | [] => simp
  | [a] => simp
  | a :: b :: rest =>
    have hne : a ≠ b := fun heq => (List.nodup_cons.mp h).1 (heq ▸ List.mem_cons_self)
    exact iff_of_true (by simp) ⟨a, by simp, b, by simp, hne⟩

/-- More than one path has an id if two files of different paths have it. -/
theorem one_lt_length_pathsOfId_iff (hnodup : (files.map ResolvedFile.relPath).Nodup) :
    1 < (pathsOfId d files id).length ↔
      ∃ f ∈ files, ∃ g ∈ files, f.relPath ≠ g.relPath ∧ idOf d f = id ∧ idOf d g = id := by
  have hsub : (pathsOfId d files id).Nodup := hnodup.sublist (List.filter_sublist.map _)
  rw [one_lt_length_iff hsub]
  simp only [pathsOfId, List.mem_map, List.mem_filter, decide_eq_true_eq]
  constructor
  · rintro ⟨_, ⟨f, ⟨hf, hfid⟩, rfl⟩, _, ⟨g, ⟨hg, hgid⟩, rfl⟩, hne⟩
    exact ⟨f, hf, g, hg, hne, hfid, hgid⟩
  · rintro ⟨f, hf, g, hg, hne, hfid, hgid⟩
    exact ⟨_, ⟨f, ⟨hf, hfid⟩, rfl⟩, _, ⟨g, ⟨hg, hgid⟩, rfl⟩, hne⟩

/-- No two files of different paths share a content id. -/
def IdsDiffer (d : Domain) (files : List ResolvedFile) : Prop :=
  ∀ f ∈ files, ∀ g ∈ files, idOf d f = idOf d g → f.relPath = g.relPath

theorem collisions_eq_nil_iff (hnodup : (files.map ResolvedFile.relPath).Nodup) :
    collisions d files = [] ↔ IdsDiffer d files := by
  rw [← List.head?_eq_none_iff, head?_collisions, List.findSome?_eq_none_iff]
  simp only [ite_eq_right_iff, reduceCtorEq, imp_false, one_lt_length_pathsOfId_iff hnodup]
  refine ⟨fun h f hf g hg hid => ?_, fun h f hf ⟨x, hx, y, hy, hne, hxid, hyid⟩ => ?_⟩
  · by_contra hne
    exact h f hf ⟨f, hf, g, hg, hne, rfl, hid.symm⟩
  · exact hne (h x hx y hy (hxid.trans hyid.symm))

/-- A file is the first of the files that share its content id, and no file before it shares its
own. -/
structure FirstShared (d : Domain) (files before : List ResolvedFile) (first : ResolvedFile)
    (after : List ResolvedFile) : Prop where
  split : files = before ++ first :: after
  again : ∃ f ∈ after, idOf d f = idOf d first
  alone : ∀ f ∈ before, ∀ g ∈ files, idOf d g = idOf d f → g.relPath = f.relPath

theorem firstShared_of_collisions (hnodup : (files.map ResolvedFile.relPath).Nodup)
    {c : Collision} {more : List Collision} (h : collisions d files = c :: more) :
    c.paths = pathsOfId d files c.contentId ∧ ∃ before first after,
      c.contentId = idOf d first ∧ FirstShared d files before first after := by
  have hhead : (collisions d files).head? = some c := by rw [h]; rfl
  rw [head?_collisions, List.findSome?_eq_some_iff] at hhead
  have ⟨before, first, after, hsplit, hfirst, hbefore⟩ := hhead
  have halone : ∀ f ∈ before, ∀ g ∈ files, idOf d g = idOf d f → g.relPath = f.relPath := by
    intro f hf g hg hid
    have hnone := hbefore f hf
    simp only [ite_eq_right_iff, reduceCtorEq, imp_false, one_lt_length_pathsOfId_iff hnodup]
      at hnone
    by_contra hne
    exact hnone ⟨g, hg, f, by simp [hsplit, hf], hne, hid, rfl⟩
  split at hfirst
  next hshared =>
    obtain rfl := Option.some.inj hfirst
    refine ⟨rfl, before, first, after, rfl, hsplit, ?_, halone⟩
    obtain ⟨x, hx, y, hy, hne, hxid, hyid⟩ := (one_lt_length_pathsOfId_iff hnodup).mp hshared
    have hlater {z w : ResolvedFile} (hz : z ∈ files) (hw : w ∈ files) (hzw : z.relPath ≠ w.relPath)
        (hid : idOf d w = idOf d z) : z = first ∨ z ∈ after := by
      rw [hsplit, List.mem_append, List.mem_cons] at hz
      exact hz.resolve_left fun hmem => hzw (halone z hmem w hw hid).symm
    rcases hlater hx hy hne (hyid.trans hxid.symm) with rfl | hxafter
    · rcases hlater hy hx hne.symm (hxid.trans hyid.symm) with rfl | hyafter
      · contradiction
      · exact ⟨y, hyafter, hyid⟩
    · exact ⟨x, hxafter, hxid⟩
  next => contradiction

end

/-! Strict runs. -/

section

variable {ctx : RecordContext} {dryRun : Bool} {t u : FileTree} {files : List ResolvedFile}
  {reports : List ProcessedFile} {failure : Option Failure}

/-- One step, links or not: it fails at the file, or tells the file's content id. -/
theorem process_cases (ctx : RecordContext) (dryRun : Bool) (t : FileTree) (file : ResolvedFile) :
    (∃ e, process ctx dryRun t file = .error e ∧ e.isOfFile = true) ∨
      ∃ processed u, process ctx dryRun t file = .ok (processed, u) ∧
        processed.contentId = idOf ctx.domain file := by
  cases hread : t.read file.path with
  | error => exact .inl ⟨_, process_of_unreadable hread, rfl⟩
  | ok content =>
    cases dryRun with
    | true => exact .inr ⟨_, _, process_dryRun hread, rfl⟩
    | false =>
      cases hwrite : t.write (sidecarPath file.path) (sidecarBytes ctx file content) with
      | error => exact .inl ⟨_, process_of_unwritable hread hwrite, rfl⟩
      | ok v => exact .inr ⟨_, _, process_of_written hread hwrite, rfl⟩

/-- A whole run fails at a file, or tells the content ids of all files in their order. -/
theorem processAll_cases (h : processAll ctx dryRun t files = (reports, u, failure)) :
    (∃ e, failure = some e ∧ e.isOfFile = true) ∨
      failure = none ∧ reports.map ProcessedFile.contentId = files.map (idOf ctx.domain) := by
  induction files generalizing t reports with
  | nil =>
    rw [processAll_nil, Prod.mk.injEq, Prod.mk.injEq] at h
    obtain ⟨rfl, _, rfl⟩ := h
    exact .inr ⟨rfl, rfl⟩
  | cons file files ih =>
    rcases process_cases ctx dryRun t file with ⟨e, he, hkind⟩ | ⟨processed, v, hok, hid⟩
    · rw [processAll_of_error he, Prod.mk.injEq, Prod.mk.injEq] at h
      exact .inl ⟨e, h.2.2.symm, hkind⟩
    · obtain ⟨⟨more, w, failure'⟩, hrest⟩ : ∃ x, processAll ctx dryRun v files = x := ⟨_, rfl⟩
      rw [processAll_of_ok hok hrest, Prod.mk.injEq, Prod.mk.injEq] at h
      obtain ⟨rfl, rfl, rfl⟩ := h
      refine (ih hrest).imp id fun ⟨hnone, hids⟩ => ⟨hnone, ?_⟩
      rw [List.map_cons, List.map_cons, hid, hids]

theorem takes_cases {options : RunOptions} {result : Except Failure Report}
    (h : Takes options t files result u) :
    (∃ e, result = .error e ∧ e.isOfFile = true) ∨ ∃ report, result = .ok report ∧
      report.files.map ProcessedFile.contentId = files.map (idOf options.context.domain) := by
  have ⟨reports, failure, hrun, hresult⟩ := h
  rcases processAll_cases hrun with ⟨e, rfl, hkind⟩ | ⟨rfl, hids⟩
  · exact .inl ⟨e, hresult, hkind⟩
  · exact .inr ⟨_, hresult, hids⟩

/-- Files that are taken are not refused. -/
theorem ne_sharedId_of_takes {options : RunOptions} {result : Except Failure Report}
    (h : Takes options t files result u) (id : String) (paths : List String) :
    result ≠ .error (.sharedId id paths) := by
  intro hshared
  rcases takes_cases h with ⟨e, he, hkind⟩ | ⟨report, hok, _⟩
  · obtain rfl := Except.error.inj (he.symm.trans hshared)
    contradiction
  · rw [hshared] at hok
    contradiction

/-- Where no id is shared, strictness makes no difference. -/
theorem ofFiles_withStrict {options : RunOptions}
    (h : collisions options.context.domain files = []) (strict : Bool) (t : FileTree) :
    ofFiles (options.withStrict strict) t files = ofFiles options t files := by
  have hboth (o : RunOptions) (hshared : collisions o.context.domain files = []) :
      ofFiles o t files = ofFiles (o.withStrict false) t files := by
    unfold ofFiles
    cases hstrict : o.strict with
    | false => rfl
    | true => simp [RunOptions.withStrict, hshared]
  rw [hboth options h, hboth (options.withStrict strict) h]
  rfl

/-- When a strict run refuses files, and what it does otherwise. -/
structure StrictlyRuns (options : RunOptions) (t : FileTree) (files : List ResolvedFile) :
    Prop where
  /-- It refuses files exactly if two of them share a content id. -/
  refuses_iff : (∃ id paths,
      (run (options.withStrict true) t).result = .error (.sharedId id paths)) ↔
    ∃ f ∈ files, ∃ g ∈ files, f.relPath ≠ g.relPath ∧
      idOf options.context.domain f = idOf options.context.domain g
  /-- The id that it names is the first to be shared, with all its files; nothing is changed. -/
  refused : ∀ id paths, (run (options.withStrict true) t).result = .error (.sharedId id paths) →
    (run (options.withStrict true) t).tree = t ∧
    paths = pathsOfId options.context.domain files id ∧
    ∃ before first after, id = idOf options.context.domain first ∧
      FirstShared options.context.domain files before first after
  /-- Otherwise it does what a run that is not strict does, and tells no id twice. -/
  same : IdsDiffer options.context.domain files →
    (run (options.withStrict true) t).result = (run (options.withStrict false) t).result ∧
    (run (options.withStrict true) t).tree = (run (options.withStrict false) t).tree ∧
    ∀ report, (run (options.withStrict true) t).result = .ok report →
      (report.files.map ProcessedFile.contentId).Nodup

theorem nodup_map_idOf {d : Domain} (hnodup : (files.map ResolvedFile.relPath).Nodup)
    (h : IdsDiffer d files) : (files.map (idOf d)).Nodup :=
  (List.Nodup.of_map _ hnodup).map_on fun f hf g hg hid =>
    List.inj_on_of_nodup_map hnodup hf hg (h f hf g hg hid)

theorem not_idsDiffer_iff {d : Domain} : ¬IdsDiffer d files ↔
    ∃ f ∈ files, ∃ g ∈ files, f.relPath ≠ g.relPath ∧ idOf d f = idOf d g := by
  simp only [IdsDiffer, not_forall, exists_prop]
  grind

/-- A strict run refuses exactly the files of which two share a content id. -/
theorem strictlyRuns_of_resolve (options : RunOptions) {root : Path} {exclude : List Glob.Pattern}
    (hroot : canonicalRoot t options.root = .ok root)
    (hexclude : compileExcludes options.exclude = .ok exclude)
    (hfiles : resolve t root options.globs exclude = .ok files) :
    StrictlyRuns options t files := by
  have hnodup := nodup_relPath_of_resolve hfiles
  have hrun (strict : Bool) : (run (options.withStrict strict) t).result =
        (ofFiles (options.withStrict strict) t files).result ∧
      (run (options.withStrict strict) t).tree =
        (ofFiles (options.withStrict strict) t files).tree :=
    run_eq_ofFiles hroot hexclude hfiles
  cases hshared : collisions options.context.domain files with
  | nil =>
    have hdiffer := (collisions_eq_nil_iff hnodup).mp hshared
    have htakes : Takes (options.withStrict true) t files (run (options.withStrict true) t).result
        (run (options.withStrict true) t).tree := by
      rw [(hrun true).1, (hrun true).2]
      exact takes_ofFiles (options.withStrict true) (.inr hshared) t
    have hnever := ne_sharedId_of_takes htakes
    refine ⟨iff_of_false (fun ⟨id, paths, h⟩ => hnever id paths h) ?_,
      fun id paths h => absurd h (hnever id paths), fun _ => ⟨?_, ?_, fun report h => ?_⟩⟩
    · exact fun hnot => not_idsDiffer_iff.mpr hnot hdiffer
    · rw [(hrun true).1, (hrun false).1, ofFiles_withStrict hshared, ofFiles_withStrict hshared]
    · rw [(hrun true).2, (hrun false).2, ofFiles_withStrict hshared, ofFiles_withStrict hshared]
    · rcases takes_cases htakes with ⟨e, he, _⟩ | ⟨other, hok, hids⟩
      · rw [h] at he
        contradiction
      · obtain rfl := Except.ok.inj (hok.symm.trans h)
        rw [hids]
        exact nodup_map_idOf hnodup hdiffer
  | cons c more =>
    have hdiffer : ¬IdsDiffer options.context.domain files := by
      rw [← collisions_eq_nil_iff hnodup, hshared]
      simp
    have ⟨hpaths, before, first, after, hid, hfirst⟩ := firstShared_of_collisions hnodup hshared
    have houtcome := ofFiles_of_shared (options.withStrict true) rfl hshared t
    have hresult : (run (options.withStrict true) t).result =
        .error (.sharedId c.contentId c.paths) := by
      rw [(hrun true).1, houtcome]
    refine ⟨iff_of_true ⟨_, _, hresult⟩ (not_idsDiffer_iff.mp hdiffer), fun id paths h => ?_,
      fun h => absurd h hdiffer⟩
    obtain ⟨rfl, rfl⟩ := Failure.sharedId.inj (Except.error.inj (hresult.symm.trans h))
    refine ⟨?_, hpaths, before, first, after, hid, hfirst⟩
    rw [(hrun true).2, houtcome]

theorem strictlyRuns_twoFiles :
    (run (twoFilesRun.withStrict true) twoFiles).result = .error (.sharedId "TAX_A" ["a", "A"]) ∧
    StrictlyRuns twoFilesRun twoFiles [onlyFile, capitalFile] := by
  have hroot : canonicalRoot twoFiles ⟨"/"⟩ = .ok ⟨"/"⟩ := by cbv
  have hfiles : resolve twoFiles ⟨"/"⟩ ["a", "A"] [] = .ok [onlyFile, capitalFile] := by cbv
  have hshared : collisions .tax [onlyFile, capitalFile] = [⟨"TAX_A", ["a", "A"]⟩] := by
    rw [collisions_eq]
    cbv
  have hrun : (run (twoFilesRun.withStrict true) twoFiles).result = _ :=
    (run_eq_ofFiles hroot rfl hfiles).1
  refine ⟨?_, strictlyRuns_of_resolve twoFilesRun hroot rfl hfiles⟩
  rw [hrun, ofFiles_of_shared (twoFilesRun.withStrict true) rfl hshared]

end

end Generation

end Sidecar
