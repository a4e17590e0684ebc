import Sidecar.Generation
import Sidecar.Proofs.Digest
import Sidecar.Proofs.Selection

/-! What a run leaves behind. Sidecars never take the place of a selected file or of a directory
above one, so each file is read and written as it would have been at the start, and the run stops
at the file that would have failed then. -/

namespace Sidecar

open Generation

/-- The location of the sidecar of the file at a location. -/
def sidecarLocation : Location → Location
  | [] => []
  | name :: above => (name ++ sidecarSuffix) :: above

theorem sidecarLocation_append {below : Location} (h : below ≠ []) (above : Location) :
    sidecarLocation (below ++ above) = sidecarLocation below ++ above := by
  cases below with
  | nil => contradiction
  | cons => rfl

theorem sidecarLocation_inj {a b : Location} (ha : a ≠ []) (hb : b ≠ [])
    (h : sidecarLocation a = sidecarLocation b) : a = b := by
  cases a with
  | nil => contradiction
  | cons n above =>
    cases b with
    | nil => contradiction
    | cons m other =>
      have ⟨hname, habove⟩ := List.cons.inj h
      have hchars := congrArg String.toList hname
      rw [String.toList_append, String.toList_append, List.append_cancel_right_eq,
        String.toList_inj] at hchars
      rw [hchars, habove]

theorem Path.Spells.sidecar {p : Path} {loc : Location} (h : p.Spells loc) (hne : loc ≠ []) :
    (sidecarPath p).Spells (sidecarLocation loc) := by
  cases loc with
  | nil => contradiction
  | cons => exact spells_sidecarPath h

/-- A file that is no sidecar does not stand where a sidecar goes. -/
theorem sidecarLocation_ne {p : Path} {loc other : Location} (h : p.Spells loc)
    (hp : isSidecar p = false) (hne : other ≠ []) : sidecarLocation other ≠ loc := by
  cases other with
  | nil => contradiction
  | cons n above =>
    intro heq
    rw [← heq] at h
    have hside : isSidecar p = true := by
      rw [isSidecar_iff h, String.toList_append]
      exact List.suffix_append _ _
    rw [hp] at hside
    contradiction

/-- The suffixes of a sidecar's location are the location itself and directories of its file. -/
theorem suffix_sidecarLocation {l loc : Location} (h : l <:+ sidecarLocation loc) :
    l = sidecarLocation loc ∨ l <:+ loc.tail := by
  cases loc with
  | nil => exact .inl (List.suffix_nil.mp h)
  | cons n above => exact List.suffix_cons_iff.mp h

namespace Generation

/-- The record of a file that holds `content`. -/
def recordOf (ctx : RecordContext) (file : ResolvedFile) (content : ByteArray) : Record :=
  .assemble ctx file.path file.relPath (Digest.sha256 content.toList)

/-- The bytes of the sidecar of a file that holds `content`. -/
def sidecarBytes (ctx : RecordContext) (file : ResolvedFile) (content : ByteArray) : ByteArray :=
  (recordOf ctx file content).render.toUTF8

/-- How a file fails, all else as it is in the tree. -/
inductive Fails (ctx : RecordContext) (dryRun : Bool) (t : FileTree) (file : ResolvedFile) :
    Failure → Prop where
  | read {cause} : t.read file.path = .error cause →
      Fails ctx dryRun t file (.unreadable file.path cause)
  | write {content cause} : dryRun = false → t.read file.path = .ok content →
      t.write (sidecarPath file.path) (sidecarBytes ctx file content) = .error cause →
      Fails ctx dryRun t file (.unwritable (sidecarPath file.path) cause)

/-- `u` is `t` with the sidecars of some of its files, and otherwise as `t` was. -/
structure WithSidecars (ctx : RecordContext) (t : FileTree) (files : List ResolvedFile)
    (u : FileTree) : Prop where
  written : ∀ f ∈ files, ∃ content loc, t.read f.path = .ok content ∧
    t.locate .newFile (sidecarPath f.path) = .ok loc ∧ t.get? loc ≠ some .directory ∧
    u.get? loc = some (.file (sidecarBytes ctx f content))
  kept : ∀ loc, (∀ f ∈ files, t.locate .newFile (sidecarPath f.path) ≠ .ok loc) →
    u.get? loc = t.get? loc
  workingDirectory : u.workingDirectory = t.workingDirectory

section

variable {ctx : RecordContext} {dryRun : Bool} {t u : FileTree} {file : ResolvedFile}

theorem build_eq (t : FileTree) (ctx : RecordContext) (file : ResolvedFile) :
    Record.build t ctx file.path file.relPath =
      ((t.read file.path).mapError (.unreadable file.path)).map (recordOf ctx file) := by
  rw [Record.build, sha256File]
  cases t.read file.path with
  | error => rfl
  | ok content =>
    simp only [Except.mapError, bind, Except.bind, Digest.digest_fullReads, Except.map]
    rfl

theorem process_of_unreadable {cause : OsError} (h : t.read file.path = .error cause) :
    process ctx dryRun t file = .error (.unreadable file.path cause) := by
  rw [process, build_eq, h]
  rfl

theorem process_dryRun {content : ByteArray} (h : t.read file.path = .ok content) :
    process ctx true t file = .ok ((recordOf ctx file content).processed file.relPath, t) := by
  rw [process, build_eq, h]
  rfl

theorem process_of_read {content : ByteArray} (h : t.read file.path = .ok content) :
    process ctx false t file = (((t.write (sidecarPath file.path)
      (sidecarBytes ctx file content)).mapError (.unwritable (sidecarPath file.path))).map
        fun u => ((recordOf ctx file content).processed file.relPath, u)) := by
  rw [process, build_eq, h]
  rfl

theorem process_of_unwritable {content : ByteArray} {cause : OsError}
    (h : t.read file.path = .ok content)
    (hw : t.write (sidecarPath file.path) (sidecarBytes ctx file content) = .error cause) :
    process ctx false t file = .error (.unwritable (sidecarPath file.path) cause) := by
  rw [process_of_read h, hw]
  rfl

theorem process_of_written {content : ByteArray} (h : t.read file.path = .ok content)
    (hw : t.write (sidecarPath file.path) (sidecarBytes ctx file content) = .ok u) :
    process ctx false t file = .ok ((recordOf ctx file content).processed file.relPath, u) := by
  rw [process_of_read h, hw]
  rfl

theorem processAll_nil (ctx : RecordContext) (dryRun : Bool) (t : FileTree) :
    processAll ctx dryRun t [] = ([], t, none) :=
  rfl

theorem processAll_of_error {rest : List ResolvedFile} {e : Failure}
    (h : process ctx dryRun t file = .error e) :
    processAll ctx dryRun t (file :: rest) = ([], t, some e) := by
  unfold processAll
  rw [h]

theorem processAll_of_ok {rest : List ResolvedFile} {processed : ProcessedFile}
    {more : List ProcessedFile} {v : FileTree} {failure : Option Failure}
    (h : process ctx dryRun t file = .ok (processed, u))
    (hrest : processAll ctx dryRun u rest = (more, v, failure)) :
    processAll ctx dryRun t (file :: rest) = (processed :: more, v, failure) := by
  unfold processAll
  simp only [h, hrest]

end

/-- A file that lies under the root by its path, stands there and is no sidecar. -/
structure IsTarget (t : FileTree) (above : Location) (file : ResolvedFile) (names : List String) :
    Prop where
  spells : file.path.Spells (names.reverse ++ above)
  relPath_eq : file.relPath = "/".intercalate names
  stands : (t.get? (names.reverse ++ above)).isSome = true
  notSidecar : isSidecar file.path = false

section

variable {ctx : RecordContext} {dryRun : Bool} {t u v : FileTree} {above : Location}
  {done : List ResolvedFile} {file : ResolvedFile} {names : List String}

theorem IsTarget.ne_nil (hf : IsTarget t above file names)
    (hdir : t.get? above = some .directory) (hfree : t.LinkFreeBelow above) {content : ByteArray}
    (hread : t.read file.path = .ok content) : names ≠ [] := by
  intro hnil
  have hg := FileTree.get?_of_read hf.spells (hfree.along hdir _) hread
  rw [hnil, List.reverse_nil, List.nil_append, hdir] at hg
  simp at hg

theorem IsTarget.sidecar (hf : IsTarget t above file names) (hne : names ≠ []) :
    (sidecarPath file.path).Spells (sidecarLocation names.reverse ++ above) := by
  have hrev : names.reverse ≠ [] := by simpa using hne
  rw [← sidecarLocation_append hrev]
  exact hf.spells.sidecar (by simp [hne])

theorem IsTarget.place_eq (hf : IsTarget t above file names) (hne : names ≠ [])
    (hdir : t.get? above = some .directory) (hfree : t.LinkFreeBelow above) {ending : Ending}
    {loc : Location} (h : t.locate ending (sidecarPath file.path) = .ok loc) :
    loc = sidecarLocation names.reverse ++ above :=
  FileTree.locate_location (hf.sidecar hne) (hfree.along hdir _) h

/-- Files with different paths have their sidecars at different places. -/
theorem IsTarget.place_inj {other : ResolvedFile} {more : List String}
    (hf : IsTarget t above file names) (ho : IsTarget t above other more) (hne : names ≠ [])
    (hmore : more ≠ [])
    (h : sidecarLocation more.reverse ++ above = sidecarLocation names.reverse ++ above) :
    other.relPath = file.relPath := by
  have hloc := sidecarLocation_inj (by simpa using hmore) (by simpa using hne)
    (List.append_cancel_right h)
  rw [ho.relPath_eq, hf.relPath_eq, List.reverse_inj.mp hloc]

theorem WithSidecars.get?_eq (hu : WithSidecars ctx t done u)
    (hdir : t.get? above = some .directory) (hfree : t.LinkFreeBelow above)
    (hdone : ∀ g ∈ done, ∃ more, IsTarget t above g more) {loc : Location}
    (h : ∀ g ∈ done, ∀ more, IsTarget t above g more → more ≠ [] →
      sidecarLocation more.reverse ++ above ≠ loc) : u.get? loc = t.get? loc := by
  apply hu.kept
  intro g hg hloc
  have ⟨_, _, hread, _⟩ := hu.written g hg
  have ⟨more, hm⟩ := hdone g hg
  have hne := hm.ne_nil hdir hfree hread
  exact h g hg more hm hne (hm.place_eq hne hdir hfree hloc).symm

/-- Sidecars leave a selected file and the directories above it as they were. -/
theorem WithSidecars.agree_file (hu : WithSidecars ctx t done u)
    (hdir : t.get? above = some .directory) (hfree : t.LinkFreeBelow above)
    (hdone : ∀ g ∈ done, ∃ more, IsTarget t above g more) (hf : IsTarget t above file names) :
    t.AgreeAlong u (names.reverse ++ above) := by
  apply FileTree.agreeAlong_of_isSome hf.stands
  refine hu.get?_eq hdir hfree hdone fun g _ more _ hmore => ?_
  rw [← sidecarLocation_append (by simpa using hmore)]
  exact sidecarLocation_ne hf.spells hf.notSidecar (by simp [hmore])

/-- Sidecars of other files leave the place of a sidecar as it was. -/
theorem WithSidecars.agree_sidecar (hu : WithSidecars ctx t done u)
    (hdir : t.get? above = some .directory) (hfree : t.LinkFreeBelow above)
    (hdone : ∀ g ∈ done, ∃ more, IsTarget t above g more) (hf : IsTarget t above file names)
    (hne : names ≠ []) (hfresh : file.relPath ∉ done.map ResolvedFile.relPath) :
    t.AgreeAlong u (sidecarLocation names.reverse ++ above) := by
  intro l hs
  rw [← sidecarLocation_append (by simpa using hne)] at hs
  cases suffix_sidecarLocation hs with
  | inl heq =>
    rw [heq, sidecarLocation_append (by simpa using hne)]
    refine hu.get?_eq hdir hfree hdone fun g hg more hm hmore hplace => hfresh ?_
    exact List.mem_map.mpr ⟨g, hg, hf.place_inj hm hne hmore hplace⟩
  | inr htail =>
    have hstands := hu.agree_file hdir hfree hdone hf _ (List.suffix_refl _) ▸ hf.stands
    rw [FileTree.get?_of_suffix_tail hf.stands htail, FileTree.get?_of_suffix_tail hstands htail]

/-- One more sidecar. -/
theorem WithSidecars.extend (hu : WithSidecars ctx t done u)
    (hdir : t.get? above = some .directory) (hfree : t.LinkFreeBelow above)
    (hdone : ∀ g ∈ done, ∃ more, IsTarget t above g more) (hf : IsTarget t above file names)
    (hfresh : file.relPath ∉ done.map ResolvedFile.relPath) {content : ByteArray}
    (hread : t.read file.path = .ok content)
    (hw : u.write (sidecarPath file.path) (sidecarBytes ctx file content) = .ok v) :
    WithSidecars ctx t (done ++ [file]) v := by
  have hne := hf.ne_nil hdir hfree hread
  have hagree := hu.agree_sidecar hdir hfree hdone hf hne hfresh
  obtain ⟨loc, accepts, hl, rfl⟩ := FileTree.write_eq_ok hw
  rw [FileTree.locate_congr (hf.sidecar hne) (hfree.along hdir _) hagree] at hl
  have hloc := hf.place_eq hne hdir hfree hl
  have hnew : t.get? loc ≠ some .directory := by
    rw [← hloc] at hagree
    exact FileTree.not_directory_of_accepts ((FileTree.accepts_congr hagree).mp accepts)
  refine ⟨?_, ?_, hu.workingDirectory⟩
  · intro g hg
    cases List.mem_append.mp hg with
    | inl hg =>
      have ⟨old, place, hold, hplace, hplaceNew, hget⟩ := hu.written g hg
      have ⟨more, hm⟩ := hdone g hg
      have hmore := hm.ne_nil hdir hfree hold
      have hother : place ≠ loc := by
        intro heq
        rw [hloc, hm.place_eq hmore hdir hfree hplace] at heq
        exact hfresh (List.mem_map.mpr ⟨g, hg, hf.place_inj hm hne hmore heq⟩)
      refine ⟨old, place, hold, hplace, hplaceNew, ?_⟩
      rw [FileTree.get?_put_of_ne accepts hother, hget]
    | inr hg =>
      rw [List.mem_singleton.mp hg]
      exact ⟨content, loc, hread, hl, hnew, FileTree.get?_put_self u loc _ accepts⟩
  · intro place hplace
    have hother : place ≠ loc := by
      intro heq
      exact hplace file (by simp) (heq ▸ hl)
    rw [FileTree.get?_put_of_ne accepts hother]
    exact hu.kept place fun g hg => hplace g (List.mem_append_left _ hg)

/-- The sidecars that a run has written after some files. -/
def writtenOf (dryRun : Bool) (done : List ResolvedFile) : List ResolvedFile :=
  if dryRun then [] else done

theorem mem_of_mem_writtenOf (h : file ∈ writtenOf dryRun done) : file ∈ done := by
  cases dryRun with
  | true => simp [writtenOf] at h
  | false => exact h

/-- One step: the file fails as it would have at the start, or its sidecar is added. -/
theorem process_step (hu : WithSidecars ctx t (writtenOf dryRun done) u)
    (hdir : t.get? above = some .directory) (hfree : t.LinkFreeBelow above)
    (hdone : ∀ g ∈ done, ∃ more, IsTarget t above g more) (hf : IsTarget t above file names)
    (hfresh : file.relPath ∉ done.map ResolvedFile.relPath) :
    (∃ e, process ctx dryRun u file = .error e ∧ Fails ctx dryRun t file e) ∨
      ∃ content v, t.read file.path = .ok content ∧
        process ctx dryRun u file = .ok ((recordOf ctx file content).processed file.relPath, v) ∧
        (∀ e, ¬Fails ctx dryRun t file e) ∧
        WithSidecars ctx t (writtenOf dryRun (done ++ [file])) v := by
  have hwritten : ∀ g ∈ writtenOf dryRun done, ∃ more, IsTarget t above g more :=
    fun g hg => hdone g (mem_of_mem_writtenOf hg)
  have hreads : u.read file.path = t.read file.path :=
    FileTree.read_congr hf.spells (hfree.along hdir _) (hu.agree_file hdir hfree hwritten hf)
  cases hread : t.read file.path with
  | error cause =>
    rw [hread] at hreads
    exact .inl ⟨_, process_of_unreadable hreads, .read hread⟩
  | ok content =>
    rw [hread] at hreads
    cases dryRun with
    | true =>
      refine .inr ⟨content, u, rfl, process_dryRun hreads, fun e he => ?_, hu⟩
      cases he with
      | read h => rw [hread] at h; contradiction
      | write h => contradiction
    | false =>
      have hne := hf.ne_nil hdir hfree hread
      have hagree := hu.agree_sidecar hdir hfree hdone hf hne hfresh
      have hwrites (cause : OsError) := FileTree.write_error_iff (sidecarBytes ctx file content)
        cause (hf.sidecar hne) (hfree.along hdir _) hagree
      cases hw : u.write (sidecarPath file.path) (sidecarBytes ctx file content) with
      | error cause =>
        exact .inl ⟨_, process_of_unwritable hreads hw, .write rfl hread ((hwrites _).mp hw)⟩
      | ok v =>
        refine .inr ⟨content, v, rfl, process_of_written hreads hw, fun e he => ?_,
          hu.extend hdir hfree hdone hf hfresh hread hw⟩
        cases he with
        | read h => rw [hread] at h; contradiction
        | write _ h hfail =>
          rw [hread] at h
          rw [← Except.ok.inj h, ← hwrites, hw] at hfail
          contradiction

/-- What the report says of a file. -/
def Reports (ctx : RecordContext) (t : FileTree) (file : ResolvedFile) (p : ProcessedFile) :
    Prop :=
  ∃ content, t.read file.path = .ok content ∧
    p = { path := (recordOf ctx file content).artifact.path
          contentId := (recordOf ctx file content).contentId
          year := (recordOf ctx file content).coverage.year
          sha256 := (recordOf ctx file content).artifact.sha256
          sidecar := file.relPath ++ ".metadata.json" }

/-- How a run through `files` ends when `taken` of them were taken. -/
def Ends (ctx : RecordContext) (dryRun : Bool) (t : FileTree) (files taken : List ResolvedFile) :
    Option Failure → Prop
  | none => files = taken
  | some e => ∃ file rest, files = taken ++ file :: rest ∧ Fails ctx dryRun t file e

/-- A whole run: the files before the first that fails get their sidecars. -/
theorem processAll_run {files : List ResolvedFile} {reports : List ProcessedFile}
    {failure : Option Failure} (hu : WithSidecars ctx t (writtenOf dryRun done) u)
    (hdir : t.get? above = some .directory) (hfree : t.LinkFreeBelow above)
    (htargets : ∀ f ∈ done ++ files, ∃ names, IsTarget t above f names)
    (hnodup : ((done ++ files).map ResolvedFile.relPath).Nodup)
    (h : processAll ctx dryRun u files = (reports, v, failure)) :
    ∃ taken, List.Forall₂ (Reports ctx t) taken reports ∧
      (∀ f ∈ taken, ∀ e, ¬Fails ctx dryRun t f e) ∧
      WithSidecars ctx t (writtenOf dryRun (done ++ taken)) v ∧
      Ends ctx dryRun t files taken failure := by
  induction files generalizing u done reports with
  | nil =>
    rw [processAll_nil, Prod.mk.injEq, Prod.mk.injEq] at h
    obtain ⟨rfl, rfl, rfl⟩ := h
    exact ⟨[], .nil, by simp, by rwa [List.append_nil], rfl⟩
  | cons f files ih =>
    have ⟨names, hf⟩ := htargets f (by simp)
    have hdone : ∀ g ∈ done, ∃ more, IsTarget t above g more :=
      fun g hg => htargets g (List.mem_append_left _ hg)
    have hfresh : f.relPath ∉ done.map ResolvedFile.relPath := by
      rw [List.map_append, List.nodup_append] at hnodup
      exact fun hmem => hnodup.2.2 _ hmem f.relPath (by simp) rfl
    have hsplit : done ++ f :: files = done ++ [f] ++ files := by simp
    cases process_step hu hdir hfree hdone hf hfresh with
    | inl hfail =>
      have ⟨e, he, hfails⟩ := hfail
      rw [processAll_of_error he, Prod.mk.injEq, Prod.mk.injEq] at h
      obtain ⟨rfl, rfl, rfl⟩ := h
      exact ⟨[], .nil, by simp, by rwa [List.append_nil], f, files, rfl, hfails⟩
    | inr hnext =>
      have ⟨content, w, hread, hw, hnone, hext⟩ := hnext
      obtain ⟨⟨more, w', failure'⟩, hrest⟩ : ∃ x, processAll ctx dryRun w files = x := ⟨_, rfl⟩
      rw [processAll_of_ok hw hrest, Prod.mk.injEq, Prod.mk.injEq] at h
      obtain ⟨rfl, rfl, rfl⟩ := h
      rw [hsplit] at htargets hnodup
      have ⟨taken, hforall, hfine, hwith, hends⟩ :=
        ih hext htargets hnodup hrest
      refine ⟨f :: taken, .cons ⟨content, hread, rfl⟩ hforall, ?_, ?_, ?_⟩
      · intro g hg
        cases List.mem_cons.mp hg with
        | inl heq => exact heq ▸ hnone
        | inr hg => exact hfine g hg
      · rwa [List.append_cons]
      · cases failure' with
        | none => exact congrArg (f :: ·) hends
        | some e =>
          have ⟨g, rest, hfiles, hfails⟩ := hends
          exact ⟨g, rest, congrArg (f :: ·) hfiles, hfails⟩

/-- The path of a sidecar leads to its bytes. -/
theorem WithSidecars.read_sidecar (hu : WithSidecars ctx t done u)
    (hdir : t.get? above = some .directory) (hfree : t.LinkFreeBelow above)
    (hdone : ∀ g ∈ done, ∃ more, IsTarget t above g more) (hfile : file ∈ done) :
    ∃ content, t.read file.path = .ok content ∧
      u.read (sidecarPath file.path) = .ok (sidecarBytes ctx file content) := by
  have ⟨content, loc, hread, hl, hnew, hget⟩ := hu.written file hfile
  have ⟨names, hf⟩ := hdone file hfile
  have hne := hf.ne_nil hdir hfree hread
  have hloc := hf.place_eq hne hdir hfree hl
  have hside := hf.sidecar hne
  have hsegments := hside.place_eq.trans hloc.symm
  have hother : ∀ l, l <:+ loc → l ≠ loc → u.get? l = t.get? l := by
    intro l hs hother
    rw [hloc, ← sidecarLocation_append (by simpa using hne)] at hs hother
    have htail := (suffix_sidecarLocation hs).resolve_left hother
    have hstands := hu.agree_file hdir hfree hdone hf _ (List.suffix_refl _) ▸ hf.stands
    rw [FileTree.get?_of_suffix_tail hf.stands htail, FileTree.get?_of_suffix_tail hstands htail]
  have hwalk := FileTree.walk_target_of_newFile (hsegments ▸ hloc ▸ hfree.along hdir _)
    hside.up_not_mem (FileTree.walk_of_locate hside.isAbsolute hl) hget hother hnew
  have hlocate : u.locate .target (sidecarPath file.path) = .ok loc :=
    FileTree.locate_of_walk hside.isAbsolute hl hwalk
  refine ⟨content, hread, ?_⟩
  rw [FileTree.read, FileTree.find, hlocate]
  simp only [bind, Except.bind, hget]

end

section

variable {options : RunOptions} {t : FileTree} {files : List ResolvedFile}

/-- No link stands below the directory that a path leads to. -/
def LinkFreeUnder (t : FileTree) (p : Path) : Prop :=
  ∀ root above, canonicalRoot t p = .ok root → root.Spells above → t.LinkFreeBelow above

theorem isTarget_of_mem_resolve {root : Path} {above : Location} (hroot : IsRoot t root above)
    (hfree : t.LinkFreeBelow above) {patterns : List String} {exclude : List Glob.Pattern}
    (h : resolve t root patterns exclude = .ok files) {file : ResolvedFile} (hf : file ∈ files) :
    ∃ names, IsTarget t above file names := by
  have ⟨⟨_, _, hfinds⟩, _, hside, _⟩ := finds_of_mem_resolve h hf
  have ⟨_, _, _, hrel⟩ := hfinds
  have ⟨names, hspells, hrelPath⟩ := (relativePath_eq_ok_iff hroot.spells _ _).mp hrel
  exact ⟨names, hspells, hrelPath,
    hfinds.stands _ hspells (hfree.along hroot.isDirectory _), hside⟩

/-- The result of a run that took files. -/
def resultOf (options : RunOptions) (files : List ResolvedFile) (reports : List ProcessedFile) :
    Option Failure → Except Failure Report
  | some e => .error e
  | none => .ok ⟨reports, options.dryRun, collisions options.context.domain files⟩

theorem resultOf_eq_error_iff {reports : List ProcessedFile} {failure : Option Failure}
    {e : Failure} : resultOf options files reports failure = .error e ↔ failure = some e := by
  cases failure <;> simp [resultOf]

theorem resultOf_eq_ok_iff {reports : List ProcessedFile} {failure : Option Failure}
    {report : Report} : resultOf options files reports failure = .ok report ↔
      failure = none ∧
        report = ⟨reports, options.dryRun, collisions options.context.domain files⟩ := by
  cases failure <;> simp [resultOf, eq_comm]

/-- The outcome of a run in which files were taken. -/
def Takes (options : RunOptions) (t : FileTree) (files : List ResolvedFile)
    (result : Except Failure Report) (u : FileTree) : Prop :=
  ∃ reports failure, processAll options.context options.dryRun t files = (reports, u, failure) ∧
    result = resultOf options files reports failure

theorem ofFiles_of_shared (options : RunOptions) {first : Collision} {more : List Collision}
    (hstrict : options.strict = true)
    (h : collisions options.context.domain files = first :: more) (t : FileTree) :
    ofFiles options t files = ⟨.error (.sharedId first.contentId first.paths), t, []⟩ := by
  unfold ofFiles
  simp only [hstrict, h]

theorem takes_ofFiles (options : RunOptions)
    (h : options.strict = false ∨ collisions options.context.domain files = []) (t : FileTree) :
    Takes options t files (ofFiles options t files).result (ofFiles options t files).tree := by
  unfold ofFiles
  dsimp only
  split
  next hstrict hshared =>
    rw [hstrict, hshared] at h
    simp at h
  next =>
    refine ⟨_, _, rfl, ?_⟩
    cases (processAll options.context options.dryRun t files).2.2 <;> rfl

theorem ofFiles_cases (options : RunOptions) (t : FileTree) (files : List ResolvedFile) :
    (∃ e, (ofFiles options t files).result = .error e ∧ e.isOfFile = false ∧
      (ofFiles options t files).tree = t) ∨
    Takes options t files (ofFiles options t files).result (ofFiles options t files).tree := by
  cases hstrict : options.strict with
  | false => exact .inr (takes_ofFiles options (.inl hstrict) t)
  | true =>
    cases hshared : collisions options.context.domain files with
    | nil => exact .inr (takes_ofFiles options (.inr hshared) t)
    | cons first more =>
      rw [ofFiles_of_shared options hstrict hshared]
      exact .inl ⟨_, rfl, rfl, rfl⟩

theorem runUnder_eq_ofFiles {root : BytePath} {exclude : List Glob.Pattern}
    (hfiles : resolveUnder t root options.globs exclude = .ok files) :
    (runUnder options t root exclude).result = (ofFiles options t files).result ∧
      (runUnder options t root exclude).tree = (ofFiles options t files).tree := by
  unfold runUnder
  simp only [hfiles, and_self]

section

variable {root : Path} {exclude : List Glob.Pattern}

theorem run_eq_runUnder (hroot : canonicalRoot t options.root = .ok root)
    (hexclude : compileExcludes options.exclude = .ok exclude) :
    run options t = runUnder options t root exclude := by
  unfold run
  simp only [hroot, hexclude, bind, Except.bind, pure, Except.pure]

theorem run_eq_ofFiles (hroot : canonicalRoot t options.root = .ok root)
    (hexclude : compileExcludes options.exclude = .ok exclude)
    (hfiles : resolve t root options.globs exclude = .ok files) :
    (run options t).result = (ofFiles options t files).result ∧
      (run options t).tree = (ofFiles options t files).tree := by
  rw [run_eq_runUnder hroot hexclude]
  exact runUnder_eq_ofFiles hfiles

/-! A run that fails before it takes any file leaves the tree as it was. -/

variable {e : Failure}

theorem run_of_canonicalRoot (options : RunOptions) (h : canonicalRoot t options.root = .error e) :
    (run options t).result = .error e ∧ (run options t).tree = t := by
  unfold run
  simp only [h, bind, Except.bind, and_self]

theorem run_of_compileExcludes (options : RunOptions)
    (hroot : canonicalRoot t options.root = .ok root)
    (h : compileExcludes options.exclude = .error e) :
    (run options t).result = .error e ∧ (run options t).tree = t := by
  unfold run
  simp only [hroot, h, bind, Except.bind, and_self]

theorem run_of_resolve (options : RunOptions) (hroot : canonicalRoot t options.root = .ok root)
    (hexclude : compileExcludes options.exclude = .ok exclude)
    (h : resolve t root options.globs exclude = .error e) :
    (run options t).result = .error e ∧ (run options t).tree = t := by
  rw [run_eq_runUnder hroot hexclude]
  unfold runUnder
  rw [resolve] at h
  simp only [h, and_self]

end

theorem ofFiles_eq_resultOf {reports : List ProcessedFile} {u : FileTree}
    {failure : Option Failure} (hstrict : options.strict = false)
    (hrun : processAll options.context options.dryRun t files = (reports, u, failure)) :
    (ofFiles options t files).result = resultOf options files reports failure := by
  unfold ofFiles
  simp only [hstrict, hrun]
  cases failure <;> rfl

theorem run_eq_resultOf {root : Path} {exclude : List Glob.Pattern}
    {reports : List ProcessedFile} {u : FileTree} {failure : Option Failure}
    (hroot : canonicalRoot t options.root = .ok root)
    (hexclude : compileExcludes options.exclude = .ok exclude)
    (hfiles : resolve t root options.globs exclude = .ok files) (hstrict : options.strict = false)
    (hrun : processAll options.context options.dryRun t files = (reports, u, failure)) :
    (run options t).result = resultOf options files reports failure := by
  rw [(run_eq_ofFiles hroot hexclude hfiles).1, ofFiles_eq_resultOf hstrict hrun]

/-- A run fails before it takes any file, or takes those that were resolved. -/
theorem run_cases (options : RunOptions) (t : FileTree) :
    (∃ e, (run options t).result = .error e ∧ e.isOfFile = false ∧ (run options t).tree = t) ∨
    ∃ root exclude files, canonicalRoot t options.root = .ok root ∧
      compileExcludes options.exclude = .ok exclude ∧
      resolve t root options.globs exclude = .ok files ∧
      Takes options t files (run options t).result (run options t).tree := by
  cases hroot : canonicalRoot t options.root with
  | error e =>
    have ⟨hresult, htree⟩ := run_of_canonicalRoot options hroot
    exact .inl ⟨e, hresult, isOfFile_of_canonicalRoot hroot, htree⟩
  | ok root =>
    cases hexclude : compileExcludes options.exclude with
    | error e =>
      have ⟨hresult, htree⟩ := run_of_compileExcludes options hroot hexclude
      exact .inl ⟨e, hresult, isOfFile_of_compileExcludes hexclude, htree⟩
    | ok exclude =>
      cases hfiles : resolve t root options.globs exclude with
      | error e =>
        have ⟨hresult, htree⟩ := run_of_resolve options hroot hexclude hfiles
        exact .inl ⟨e, hresult, isOfFile_of_resolve hfiles, htree⟩
      | ok files =>
        have ⟨hresult, htree⟩ := run_eq_ofFiles hroot hexclude hfiles
        rw [hresult, htree]
        cases ofFiles_cases options t files with
        | inl h => exact .inl h
        | inr h => exact .inr ⟨root, exclude, files, rfl, rfl, hfiles, h⟩

/-- The empty list of sidecars stands for the tree as it was. -/
theorem withSidecars_nil (ctx : RecordContext) (dryRun : Bool) (t : FileTree) :
    WithSidecars ctx t (writtenOf dryRun []) t := by
  refine ⟨fun f hf => ?_, fun _ _ => rfl, rfl⟩
  have := mem_of_mem_writtenOf hf
  contradiction

theorem Takes.ends {result : Except Failure Report} {u : FileTree}
    (h : Takes options t files result u) {root : Path} {above : Location}
    (hroot : IsRoot t root above) (hfree : t.LinkFreeBelow above) {patterns : List String}
    {exclude : List Glob.Pattern} (hfiles : resolve t root patterns exclude = .ok files) :
    ∃ taken reports failure, List.Forall₂ (Reports options.context t) taken reports ∧
      (∀ f ∈ taken, ∀ e, ¬Fails options.context options.dryRun t f e) ∧
      WithSidecars options.context t (writtenOf options.dryRun taken) u ∧
      Ends options.context options.dryRun t files taken failure ∧
      result = resultOf options files reports failure := by
  have ⟨reports, failure, hrun, hresult⟩ := h
  have ⟨taken, hreports, hfine, hwith, hends⟩ :=
    processAll_run (withSidecars_nil options.context options.dryRun t) hroot.isDirectory hfree
      (fun f hf => isTarget_of_mem_resolve hroot hfree hfiles hf)
      (nodup_relPath_of_resolve hfiles) hrun
  exact ⟨taken, reports, failure, hreports, hfine, hwith, hends, hresult⟩

/-- Of two ways to cut a list before an element, one is longer or both are one. -/
theorem cut_cases {α : Type} {before after before' after' : List α} {x y : α}
    (h : before ++ x :: after = before' ++ y :: after') :
    x = y ∨ x ∈ before' ∨ ∃ middle, before = before' ++ y :: middle := by
  rcases List.append_eq_append_iff.mp h with ⟨more, hlonger, hrest⟩ | ⟨more, hshorter, hrest⟩
  · cases more with
    | nil => exact .inl (List.cons.inj hrest).1
    | cons z more =>
      obtain rfl := (List.cons.inj hrest).1
      exact .inr (.inl (by simp [hlonger]))
  · cases more with
    | nil => exact .inl (List.cons.inj hrest).1.symm
    | cons z more =>
      obtain rfl := (List.cons.inj hrest).1
      exact .inr (.inr ⟨more, hshorter⟩)

theorem Fails.unique {ctx : RecordContext} {dryRun : Bool} {file : ResolvedFile} {e e' : Failure}
    (h : Fails ctx dryRun t file e) (h' : Fails ctx dryRun t file e') : e = e' := by
  cases h with
  | read hread =>
    cases h' with
    | read hread' => rw [Except.error.inj (hread.symm.trans hread')]
    | write _ hread' => cases hread.symm.trans hread'
  | write _ hread hwrite =>
    cases h' with
    | read hread' => cases hread.symm.trans hread'
    | write _ hread' hwrite' =>
      obtain rfl := Except.ok.inj (hread.symm.trans hread')
      rw [Except.error.inj (hwrite.symm.trans hwrite')]

section

variable {root : Path} {above : Location} {exclude : List Glob.Pattern}

/-- A run that does not refuse shared ids ends at the first file that fails, if there is one. -/
theorem exists_ends (hisRoot : IsRoot t root above)
    (hroot : canonicalRoot t options.root = .ok root)
    (hexclude : compileExcludes options.exclude = .ok exclude)
    (hfiles : resolve t root options.globs exclude = .ok files) (hstrict : options.strict = false)
    (hfree : t.LinkFreeBelow above) : ∃ taken reports failure,
      (∀ f ∈ taken, ∀ e, ¬Fails options.context options.dryRun t f e) ∧
      Ends options.context options.dryRun t files taken failure ∧
      (run options t).result = resultOf options files reports failure := by
  have htakes : Takes options t files _ _ := takes_ofFiles options (.inl hstrict) t
  obtain ⟨taken, reports, failure, _, hfine, _, hends, hresult⟩ := htakes.ends hisRoot hfree hfiles
  rw [← (run_eq_ofFiles hroot hexclude hfiles).1] at hresult
  exact ⟨taken, reports, failure, hfine, hends, hresult⟩

theorem exists_report (hisRoot : IsRoot t root above)
    (hroot : canonicalRoot t options.root = .ok root)
    (hexclude : compileExcludes options.exclude = .ok exclude)
    (hfiles : resolve t root options.globs exclude = .ok files) (hstrict : options.strict = false)
    (hfree : t.LinkFreeBelow above)
    (hfine : ∀ f ∈ files, ∀ e, ¬Fails options.context options.dryRun t f e) :
    ∃ report, (run options t).result = .ok report := by
  obtain ⟨taken, reports, failure, -, hends, hresult⟩ :=
    exists_ends hisRoot hroot hexclude hfiles hstrict hfree
  cases failure with
  | none => exact ⟨_, hresult⟩
  | some e =>
    obtain ⟨file, rest, rfl, hfails⟩ := hends
    exact absurd hfails (hfine file (by simp) e)

theorem run_eq_error_of_fails {before rest : List ResolvedFile} {file : ResolvedFile} {e : Failure}
    (hisRoot : IsRoot t root above) (hroot : canonicalRoot t options.root = .ok root)
    (hexclude : compileExcludes options.exclude = .ok exclude)
    (hfiles : resolve t root options.globs exclude = .ok (before ++ file :: rest))
    (hstrict : options.strict = false) (hfree : t.LinkFreeBelow above)
    (hbefore : ∀ f ∈ before, ∀ e, ¬Fails options.context options.dryRun t f e)
    (hfails : Fails options.context options.dryRun t file e) :
    (run options t).result = .error e := by
  obtain ⟨taken, reports, failure, hfine, hends, hresult⟩ :=
    exists_ends hisRoot hroot hexclude hfiles hstrict hfree
  cases failure with
  | none =>
    obtain rfl : before ++ file :: rest = taken := hends
    exact absurd hfails (hfine file (by simp) e)
  | some e' =>
    obtain ⟨other, after, hcut, hother⟩ := hends
    rcases cut_cases hcut with rfl | hmem | ⟨middle, rfl⟩
    · rw [hresult, hfails.unique hother]
      rfl
    · exact absurd hfails (hfine file hmem e)
    · exact absurd hother (hbefore other (by simp) e')

end

/-- A run that finishes adds the sidecar of every file that its patterns select, changes nothing
else, and reports the files in their order. -/
theorem sidecars_of_run_ok {report : Report} (hfree : LinkFreeUnder t options.root)
    (hwrites : options.dryRun = false) (h : (run options t).result = .ok report) :
    ∃ root exclude files, canonicalRoot t options.root = .ok root ∧
      compileExcludes options.exclude = .ok exclude ∧
      resolve t root options.globs exclude = .ok files ∧
      WithSidecars options.context t files (run options t).tree ∧
      (∀ f ∈ files, ∃ content, t.read f.path = .ok content ∧
        (run options t).tree.read (sidecarPath f.path) =
          .ok (sidecarBytes options.context f content)) ∧
      List.Forall₂ (Reports options.context t) files report.files ∧
      report.collisions = collisions options.context.domain files := by
  cases run_cases options t with
  | inl hfail =>
    have ⟨e, he, _⟩ := hfail
    rw [he] at h
    contradiction
  | inr htakes =>
    have ⟨root, exclude, files, hroot, hexclude, hfiles, htakes⟩ := htakes
    have ⟨above, hisRoot⟩ := isRoot_of_canonicalRoot hroot
    have hbelow := hfree root above hroot hisRoot.spells
    have ⟨taken, reports, failure, hreports, _, hwith, hends, hresult⟩ :=
      htakes.ends hisRoot hbelow hfiles
    cases failure with
    | some e =>
      rw [hresult] at h
      contradiction
    | none =>
      obtain rfl : files = taken := hends
      have hall : writtenOf options.dryRun files = files := by
        rw [hwrites]
        rfl
      rw [hall] at hwith
      rw [hresult] at h
      have hreport := (Except.ok.inj h).symm
      refine ⟨root, exclude, files, hroot, hexclude, hfiles, hwith, fun f hf => ?_, ?_, ?_⟩
      · exact hwith.read_sidecar hisRoot.isDirectory hbelow
          (fun g hg => isTarget_of_mem_resolve hisRoot hbelow hfiles hg) hf
      · rwa [hreport]
      · rw [hreport]

/-- The file of a tree of one file. -/
def onlyFile : ResolvedFile :=
  ⟨⟨"/a"⟩, "a"⟩

def onlyFileRun : RunOptions where
  root := ⟨"/"⟩
  globs := ["a"]
  exclude := []
  context := .new .tax "2024-05-01" none none
  dryRun := false
  strict := false

theorem sidecarPath_onlyFile : sidecarPath onlyFile.path = ⟨"/a.metadata.json"⟩ := by
  decide

/-- Two files whose names differ in case alone. -/
def twoFiles : FileTree :=
  FileTree.oneFile.put ["A"] (.file "y".toUTF8) (by decide)

def capitalFile : ResolvedFile :=
  ⟨⟨"/A"⟩, "A"⟩

def twoFilesRun : RunOptions :=
  { onlyFileRun with globs := ["a", "A"] }

theorem sidecarPath_capitalFile : sidecarPath capitalFile.path = ⟨"/A.metadata.json"⟩ := by
  decide

/-- A sidecar goes to the root directory, be there nothing by its name or a directory. -/
theorem locate_in_root {t : FileTree} {name : String} (hname : 0 < name.utf8ByteSize)
    (hdots : name ≠ "." ∧ name ≠ "..") (hsize : name.utf8ByteSize ≤ FileTree.maxNameBytes)
    (hnul : '\x00' ∉ ("/" ++ name).toList)
    (hsegments : (⟨"/" ++ name⟩ : Path).segments = ["", name])
    (h : t.get? [name] = none ∨ t.get? [name] = some .directory) :
    t.locate .newFile ⟨"/" ++ name⟩ = .ok [name] := by
  have habs : (⟨"/" ++ name⟩ : Path).isAbsolute = true := by simp [Path.isAbsolute]
  have hlen : ("/" ++ name).utf8ByteSize < FileTree.maxPathBytes := by
    rw [String.utf8ByteSize_append, show "/".utf8ByteSize = 1 by decide]
    exact Nat.lt_of_le_of_lt (Nat.add_le_add_left hsize 1) (by decide)
  have hne : name ≠ "" := by
    rintro rfl
    contradiction
  have hwalk : t.walk .newFile FileTree.maxLinks [] ["", name] = .ok [name] := by
    have hfits := Nat.not_lt.mpr hsize
    rw [FileTree.walk, if_pos (.inl rfl), FileTree.walk, if_neg (not_or.mpr ⟨hne, hdots.1⟩),
      if_neg hdots.2, if_neg (by simp), if_neg hfits]
    cases h with
    | inl hnone => simp [hnone]
    | inr hdir =>
      simp only [hdir]
      rw [FileTree.walk]
  rw [FileTree.locate, if_neg fun hlong => Nat.not_le.mpr hlen hlong.2, FileTree.walkPath,
    if_neg hnul, if_neg (by simp [String.append_eq_empty_iff]), if_pos habs, hsegments, hwalk]

theorem locate_onlyFile {t : FileTree}
    (h : t.get? ["a.metadata.json"] = none ∨ t.get? ["a.metadata.json"] = some .directory) :
    t.locate .newFile (sidecarPath onlyFile.path) = .ok ["a.metadata.json"] := by
  rw [sidecarPath_onlyFile]
  exact locate_in_root (by decide) (by decide) (by decide) (by decide) (by decide) h

theorem locate_capitalFile {t : FileTree} (h : t.get? ["A.metadata.json"] = none) :
    t.locate .newFile (sidecarPath capitalFile.path) = .ok ["A.metadata.json"] := by
  rw [sidecarPath_capitalFile]
  exact locate_in_root (by decide) (by decide) (by decide) (by decide) (by decide) (.inl h)

/-- A file that can be read, and its sidecar written, does not fail. -/
theorem not_fails_of_locate {t : FileTree} {file : ResolvedFile} {content : ByteArray}
    {loc : Location} (hread : t.read file.path = .ok content)
    (hplace : t.locate .newFile (sidecarPath file.path) = .ok loc) (accepts : t.Accepts loc)
    (ctx : RecordContext) (dryRun : Bool) (e : Failure) : ¬Fails ctx dryRun t file e := by
  rintro (hunread | ⟨-, -, hunwritten⟩)
  · rw [hread] at hunread
    contradiction
  · rw [FileTree.write_of_locate hplace accepts] at hunwritten
    contradiction

theorem run_twoFiles : ∃ report, (run twoFilesRun twoFiles).result = .ok report ∧
    ∃ root exclude files, canonicalRoot twoFiles twoFilesRun.root = .ok root ∧
      compileExcludes twoFilesRun.exclude = .ok exclude ∧
      resolve twoFiles root twoFilesRun.globs exclude = .ok files ∧
      WithSidecars twoFilesRun.context twoFiles files (run twoFilesRun twoFiles).tree ∧
      (∀ f ∈ files, ∃ content, twoFiles.read f.path = .ok content ∧
        (run twoFilesRun twoFiles).tree.read (sidecarPath f.path) =
          .ok (sidecarBytes twoFilesRun.context f content)) ∧
      List.Forall₂ (Reports twoFilesRun.context twoFiles) files report.files ∧
      report.collisions = collisions twoFilesRun.context.domain files := by
  have hfree : twoFiles.LinkFree := FileTree.linkFree_oneFile.put (by simp) _
  have hroot : IsRoot twoFiles ⟨"/"⟩ [] := ⟨rfl, rfl, by decide⟩
  have hfiles : resolve twoFiles ⟨"/"⟩ ["a", "A"] [] = .ok [onlyFile, capitalFile] := by cbv
  have hread : twoFiles.read onlyFile.path = .ok "x".toUTF8 := by cbv
  have hother : twoFiles.read capitalFile.path = .ok "y".toUTF8 := by cbv
  have hfine : ∀ f ∈ [onlyFile, capitalFile], ∀ e,
      ¬Fails twoFilesRun.context twoFilesRun.dryRun twoFiles f e := by
    simp only [List.forall_mem_cons, List.not_mem_nil, false_imp_iff, implies_true, and_true]
    exact ⟨not_fails_of_locate hread (locate_onlyFile (.inl (by decide))) (by decide) _ _,
      not_fails_of_locate hother (locate_capitalFile (by decide)) (by decide) _ _⟩
  obtain ⟨report, hresult⟩ :=
    exists_report hroot hroot.canonicalRoot_eq rfl hfiles rfl (hfree.below []) hfine
  exact ⟨report, hresult, sidecars_of_run_ok (fun _ _ _ _ => hfree.below _) rfl hresult⟩

/-- A run that fails at a file leaves the sidecars of those before it, and the file is the first
that fails in the tree as it was. Any other failure leaves the tree alone. -/
theorem tree_of_run_error {e : Failure} (hfree : LinkFreeUnder t options.root)
    (h : (run options t).result = .error e) :
    match e with
    | .unreadable _ _ | .unwritable _ _ => ∃ root exclude before file rest,
      canonicalRoot t options.root = .ok root ∧
      compileExcludes options.exclude = .ok exclude ∧
      resolve t root options.globs exclude = .ok (before ++ file :: rest) ∧
      (∀ f ∈ before, ∀ other, ¬Fails options.context options.dryRun t f other) ∧
      Fails options.context options.dryRun t file e ∧
      WithSidecars options.context t (if options.dryRun then [] else before) (run options t).tree
    | _ => (run options t).tree = t := by
  cases run_cases options t with
  | inl hfail =>
    have ⟨other, hother, hkind, htree⟩ := hfail
    obtain rfl := Except.error.inj (hother.symm.trans h)
    cases other with
    | unreadable | unwritable => contradiction
    | invalidRoot | invalidPattern | unlistable | outsideRoot | sharedId => exact htree
  | inr htakes =>
    have ⟨root, exclude, files, hroot, hexclude, hfiles, htakes⟩ := htakes
    have ⟨above, hisRoot⟩ := isRoot_of_canonicalRoot hroot
    have hbelow := hfree root above hroot hisRoot.spells
    have ⟨before, reports, failure, _, hfine, hwith, hends, hresult⟩ :=
      htakes.ends hisRoot hbelow hfiles
    cases failure with
    | none =>
      rw [hresult] at h
      contradiction
    | some other =>
      obtain rfl := Except.error.inj (hresult.symm.trans h)
      obtain ⟨file, rest, rfl, hfails⟩ := hends
      cases hfails with
      | read hread =>
        exact ⟨root, exclude, before, file, rest, hroot, hexclude, hfiles, hfine, .read hread,
          hwith⟩
      | write hdry hread hwrite =>
        exact ⟨root, exclude, before, file, rest, hroot, hexclude, hfiles, hfine,
          .write hdry hread hwrite, hwith⟩

/-- The two files with a directory where the sidecar of the one goes. -/
def blockedTwoFiles : FileTree :=
  twoFiles.put ["a.metadata.json"] .directory (by decide)

def capitalFirstRun : RunOptions :=
  { onlyFileRun with globs := ["A", "a"] }

theorem run_blockedTwoFiles :
    (run capitalFirstRun blockedTwoFiles).result =
      .error (.unwritable ⟨"/a.metadata.json"⟩ .isADirectory) ∧
    ∃ root exclude before file rest,
      canonicalRoot blockedTwoFiles capitalFirstRun.root = .ok root ∧
      compileExcludes capitalFirstRun.exclude = .ok exclude ∧
      resolve blockedTwoFiles root capitalFirstRun.globs exclude = .ok (before ++ file :: rest) ∧
      (∀ f ∈ before, ∀ other, ¬Fails capitalFirstRun.context false blockedTwoFiles f other) ∧
      Fails capitalFirstRun.context false blockedTwoFiles file
        (.unwritable ⟨"/a.metadata.json"⟩ .isADirectory) ∧
      WithSidecars capitalFirstRun.context blockedTwoFiles before
        (run capitalFirstRun blockedTwoFiles).tree := by
  have hfree : blockedTwoFiles.LinkFree :=
    (FileTree.linkFree_oneFile.put (by simp) _).put (by simp) _
  have hroot : IsRoot blockedTwoFiles ⟨"/"⟩ [] := ⟨rfl, rfl, by decide⟩
  have hfiles : resolve blockedTwoFiles ⟨"/"⟩ ["A", "a"] [] =
      .ok ([capitalFile] ++ onlyFile :: []) := by
    cbv
  have hread : blockedTwoFiles.read onlyFile.path = .ok "x".toUTF8 := by cbv
  have hother : blockedTwoFiles.read capitalFile.path = .ok "y".toUTF8 := by cbv
  have hbefore : ∀ f ∈ [capitalFile], ∀ e,
      ¬Fails capitalFirstRun.context capitalFirstRun.dryRun blockedTwoFiles f e := by
    simpa using not_fails_of_locate hother (locate_capitalFile (by decide)) (by decide) _ _
  have hunwritten (content : ByteArray) :
      blockedTwoFiles.write (sidecarPath onlyFile.path) content = .error .isADirectory :=
    FileTree.write_of_not_accepts (locate_onlyFile (.inr (by decide))) (by decide) content
  have hresult : (run capitalFirstRun blockedTwoFiles).result = _ :=
    run_eq_error_of_fails hroot hroot.canonicalRoot_eq rfl hfiles rfl (hfree.below []) hbefore
      (.write rfl hread (hunwritten _))
  rw [sidecarPath_onlyFile] at hresult
  exact ⟨hresult, tree_of_run_error (fun _ _ _ _ => hfree.below _) hresult⟩

end

end Generation

end Sidecar
