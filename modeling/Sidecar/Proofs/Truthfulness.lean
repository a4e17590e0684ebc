import Sidecar.Proofs.Rendering
import Sidecar.Proofs.Stages

/-! Whether sidecars tell the truth when a run has ended. They do unless links let a later sidecar
take the place of an earlier one, or any take the place of a file that has been described. -/

namespace Sidecar.Generation

/-- The sidecar that an entry names tells the path of the entry, and the digest of the bytes that
are there. -/
def Truthful (t : FileTree) (root : Path) (entry : ProcessedFile) : Prop :=
  ∃ text record content, t.read (root.child entry.sidecar) = .ok (String.toUTF8 text) ∧
    Record.read text = .ok record ∧ t.read (root.child entry.path) = .ok content ∧
    record.artifact.path = entry.path ∧ record.artifact.sha256 = Digest.sha256 content.toList

section

variable {ctx : RecordContext} {t u : FileTree} {root : Path} {above : Location}
  {files : List ResolvedFile} {reports : List ProcessedFile}

/-- What an entry's sidecar holds is the record of some file as it was at some time. -/
theorem truthful_iff_of_read {entry : ProcessedFile} {file : ResolvedFile}
    {old content : ByteArray}
    (hsidecar : u.read (root.child entry.sidecar) = .ok (sidecarBytes ctx file old))
    (hcontent : u.read (root.child entry.path) = .ok content) :
    Truthful u root entry ↔
      file.relPath = entry.path ∧ Digest.sha256 old.toList = Digest.sha256 content.toList := by
  have hread := Record.read_render (recordOf ctx file old)
  constructor
  · intro ⟨text, record, bytes, htext, hrecord, hbytes, hpath, hdigest⟩
    have hrender : (recordOf ctx file old).render = text := by
      rw [hsidecar] at htext
      exact String.toByteArray_inj.mp (Except.ok.inj htext)
    rw [← hrender, hread] at hrecord
    rw [hcontent] at hbytes
    rw [← Except.ok.inj hrecord] at hpath hdigest
    rw [← Except.ok.inj hbytes] at hdigest
    exact ⟨hpath, hdigest⟩
  · intro ⟨hpath, hdigest⟩
    exact ⟨_, _, _, hsidecar, hread, hcontent, hpath, hdigest⟩

/-- Files that are resolved later have other paths. -/
theorem relPath_ne_of_mem_drop {patterns : List String} {exclude : List Glob.Pattern}
    (hfiles : resolve t root patterns exclude = .ok files) {k : Nat} {file : ResolvedFile}
    (hfile : files[k]? = some file) :
    ∀ later ∈ files.drop (k + 1), later.relPath ≠ file.relPath := by
  intro later hlater heq
  have ⟨hk, hget⟩ := List.getElem?_eq_some_iff.mp hfile
  have hnodup := nodup_relPath_of_resolve hfiles
  rw [← List.take_append_drop k files, List.drop_eq_getElem_cons hk, hget, List.map_append,
    List.map_cons, List.nodup_append, List.nodup_cons] at hnodup
  exact hnodup.2.1.1 (heq ▸ List.mem_map_of_mem hlater)

/-- A sidecar is truthful, when other files have been taken after its own, exactly if none of these
has its sidecar there and the bytes that it describes have the digest of those that are there. -/
theorem Stages.truthful_iff_of_written (h : Stages ctx t files reports u)
    (habs : ∀ f ∈ files, (sidecarPath f.path).isAbsolute = true) {entry : ProcessedFile}
    {file : ResolvedFile} {place : Location} {old content : ByteArray}
    (hwritten : t.get? place = some (.file (sidecarBytes ctx file old)))
    (hsidecar : ∀ bytes, u.get? place = some (.file bytes) →
      u.read (root.child entry.sidecar) = .ok bytes)
    (hcontent : u.read (root.child entry.path) = .ok content) (hpath : entry.path = file.relPath)
    (hother : ∀ f ∈ files, f.relPath ≠ file.relPath) :
    Truthful u root entry ↔ (∀ f ∈ files, ¬GoesTo t f place) ∧
      Digest.sha256 old.toList = Digest.sha256 content.toList := by
  cases h.get?_eq habs place with
  | inl hkept =>
    have ⟨hnone, hget⟩ := hkept
    rw [truthful_iff_of_read (hsidecar _ (hget.trans hwritten)) hcontent, hpath]
    exact and_congr_left fun _ => iff_of_true rfl hnone
  | inr hlater =>
    have ⟨f, hf, hgoes, other, hget⟩ := hlater
    rw [truthful_iff_of_read (hsidecar _ hget) hcontent]
    refine iff_of_false (fun h => hother f hf (h.1.trans hpath)) fun h => ?_
    exact h.1 f hf hgoes

/-- A file where no sidecar goes keeps its bytes. -/
theorem Stages.content_eq (h : Stages ctx t files reports u)
    (habs : ∀ f ∈ files, (sidecarPath f.path).isAbsolute = true) {loc : Location}
    {old content : ByteArray} (hold : t.get? loc = some (.file old))
    (hcontent : u.get? loc = some (.file content)) (hnone : ∀ f ∈ files, ¬GoesTo t f loc) :
    content = old := by
  cases h.get?_eq habs loc with
  | inl hkept =>
    rw [hkept.2, hold] at hcontent
    exact (Entry.file.inj (Option.some.inj hcontent)).symm
  | inr hwritten =>
    have ⟨f, hf, hgoes, _⟩ := hwritten
    exact absurd hgoes (hnone f hf)

/-- The exact condition for one file of a run. -/
theorem Stages.truthful_iff (h : Stages ctx t files reports u) (hroot : IsRoot t root above)
    {patterns : List String} {exclude : List Glob.Pattern}
    (hfiles : resolve t root patterns exclude = .ok files) {k : Nat} {file : ResolvedFile}
    (hfile : files[k]? = some file) :
    ∃ entry place there content, reports[k]? = some entry ∧ entry.path = file.relPath ∧
      GoesTo t file place ∧ u.locate .target (root.child entry.path) = .ok there ∧
      u.get? there = some (.file content) ∧
      (Truthful u root entry ↔ (∀ later ∈ files.drop (k + 1), ¬GoesTo t later place) ∧
        entry.sha256 = Digest.sha256 content.toList) ∧
      ((∀ writer ∈ files.drop k, ¬GoesTo t writer there) →
        entry.sha256 = Digest.sha256 content.toList) := by
  have hmem := List.mem_of_getElem? hfile
  have hdrop : files.drop k = file :: files.drop (k + 1) := by
    have ⟨hk, hget⟩ := List.getElem?_eq_some_iff.mp hfile
    rw [List.drop_eq_getElem_cons hk, hget]
  have habs := isAbsolute_sidecarPath_of_mem_resolve hroot hfiles
  have habsFrom : ∀ f ∈ files.drop k, (sidecarPath f.path).isAbsolute = true :=
    fun f hf => habs f (List.mem_of_mem_drop hf)
  have habsAfter : ∀ f ∈ files.drop (k + 1), (sidecarPath f.path).isAbsolute = true :=
    fun f hf => habs f (List.mem_of_mem_drop hf)
  -- `v` is the tree when the file is read, `w` the one with its sidecar
  have ⟨v, old, w, hbefore, hread, hwrite, hreport, hafter⟩ := h.at hfile
  have ⟨entry, hentry, hpath, hside, hdigest⟩ : ∃ entry, reports[k]? = some entry ∧
      entry.path = file.relPath ∧ entry.sidecar = file.relPath ++ sidecarSuffix ∧
      entry.sha256 = Digest.sha256 old.toList := ⟨_, hreport, rfl, rfl, rfl⟩
  have htv := hbefore.grows fun f hf => habs f (List.mem_of_mem_take hf)
  have ⟨place, accepts, hplace, hw⟩ := FileTree.write_eq_ok hwrite
  have hvw : v.GrowsTo w := hw ▸ FileTree.growsTo_put (habs file hmem) hplace accepts _
  have hvu := hvw.trans (hafter.grows habsAfter)
  have ⟨names, hnames⟩ := liesUnder_of_mem_resolve hroot hfiles hmem
  have hne := hnames.ne_nil hroot (finds_of_mem_resolve hfiles hmem).2.1 hread
  have ⟨there, hthere, hold, content, hcontent⟩ :=
    exists_place_of_read hnames.spells (by simp [hne]) hvu hread
  rw [← hnames.child_relPath hroot hne, ← hpath] at hthere
  refine ⟨entry, place, there, content, hentry, hpath, (htv.goesTo_iff (habs file hmem)).mp hplace,
    hthere, hcontent, ?_, fun hnone => ?_⟩
  · have hwritten : w.get? place = some (.file (sidecarBytes ctx file old)) := by
      rw [hw, FileTree.get?_put_self]
    have hsidecar (bytes : ByteArray) (hbytes : u.get? place = some (.file bytes)) :
        u.read (root.child entry.sidecar) = .ok bytes := by
      rw [hside]
      exact hnames.read_sidecar hroot hne hvu hplace hbytes
    have hother := relPath_ne_of_mem_drop hfiles hfile
    rw [hafter.truthful_iff_of_written habsAfter hwritten hsidecar
      (FileTree.read_of_locate hthere hcontent) hpath hother, hdigest]
    exact and_congr_left fun _ => forall₂_congr fun f hf =>
      not_congr ((htv.trans hvw).goesTo_iff (habsAfter f hf))
  · have hfrom := Stages.cons hread hwrite hafter
    rw [← hdrop] at hfrom
    rw [hdigest, hfrom.content_eq habsFrom hold hcontent fun f hf hgoes =>
      hnone f hf ((htv.goesTo_iff (habsFrom f hf)).mp hgoes)]

end

section

variable {options : RunOptions} {t : FileTree} {report : Report}

/-- A run that finishes takes every file that it resolved. -/
theorem stages_of_run_ok (hwrites : options.dryRun = false)
    (h : (run options t).result = .ok report) :
    ∃ root above exclude files, canonicalRoot t options.root = .ok root ∧ IsRoot t root above ∧
      compileExcludes options.exclude = .ok exclude ∧
      resolve t root options.globs exclude = .ok files ∧
      Stages options.context t files report.files (run options t).tree := by
  cases run_cases options t with
  | inl hfail =>
    have ⟨e, he, _⟩ := hfail
    rw [he] at h
    contradiction
  | inr htakes =>
    have ⟨root, exclude, files, hroot, hexclude, hfiles, reports, failure, hrun, hresult⟩ := htakes
    have ⟨above, hisRoot⟩ := isRoot_of_canonicalRoot hroot
    rw [hwrites] at hrun
    have ⟨taken, hstages, _, hall⟩ := stages_of_processAll hrun
    cases failure with
    | some e =>
      rw [hresult] at h
      contradiction
    | none =>
      rw [hresult] at h
      rw [← Except.ok.inj h]
      exact ⟨root, above, exclude, files, hroot, hisRoot, hexclude, hfiles, hall rfl ▸ hstages⟩

/-- When a run has ended, the sidecar of an entry is truthful exactly if no later file has its
sidecar at the same place and the bytes of the file still have the digest that was told. They do if
no sidecar went there since the file was taken. -/
theorem truthful_iff_of_run_ok (hwrites : options.dryRun = false)
    (h : (run options t).result = .ok report) :
    ∃ root exclude files, canonicalRoot t options.root = .ok root ∧
      compileExcludes options.exclude = .ok exclude ∧
      resolve t root options.globs exclude = .ok files ∧
      files.length = report.files.length ∧
      ∀ k entry, report.files[k]? = some entry → ∃ file place there content,
        files[k]? = some file ∧ entry.path = file.relPath ∧ GoesTo t file place ∧
        (run options t).tree.locate .target (root.child entry.path) = .ok there ∧
        (run options t).tree.get? there = some (.file content) ∧
        (Truthful (run options t).tree root entry ↔
          (∀ later ∈ files.drop (k + 1), ¬GoesTo t later place) ∧
            entry.sha256 = Digest.sha256 content.toList) ∧
        ((∀ writer ∈ files.drop k, ¬GoesTo t writer there) →
          entry.sha256 = Digest.sha256 content.toList) := by
  have ⟨root, above, exclude, files, hroot, hisRoot, hexclude, hfiles, hstages⟩ :=
    stages_of_run_ok hwrites h
  have hlength := hstages.length_eq
  refine ⟨root, exclude, files, hroot, hexclude, hfiles, hlength.symm, fun k entry hentry => ?_⟩
  have ⟨hk, _⟩ := List.getElem?_eq_some_iff.mp hentry
  have hfile := List.getElem?_eq_getElem (hlength ▸ hk)
  have ⟨entry', place, there, content, hentry', hfacts⟩ :=
    hstages.truthful_iff hisRoot hfiles hfile
  obtain rfl : entry' = entry := Option.some.inj (hentry'.symm.trans hentry)
  exact ⟨_, place, there, content, hfile, hfacts⟩

end

/-! Two paths to one file. -/

/-- A directory with a file, and a link to the directory. -/
def linkedTree : FileTree :=
  ((FileTree.empty.put ["d"] .directory (by decide)).put ["a", "d"] (.file "x".toUTF8)
    (by decide)).put ["e"] (.link "d") (by decide)

def directFile : ResolvedFile :=
  ⟨⟨"/d/a"⟩, "d/a"⟩

def linkedFile : ResolvedFile :=
  ⟨⟨"/e/a"⟩, "e/a"⟩

def linkedRun : RunOptions :=
  { onlyFileRun with globs := ["d/a", "e/a"] }

theorem resolve_linkedTree :
    resolve linkedTree ⟨"/"⟩ linkedRun.globs [] = .ok [directFile, linkedFile] := by
  cbv

theorem sidecarPath_linked : sidecarPath directFile.path = ⟨"/d/a.metadata.json"⟩ ∧
    sidecarPath linkedFile.path = ⟨"/e/a.metadata.json"⟩ := by
  decide

open FileTree in
theorem goesTo_linkedTree : GoesTo linkedTree directFile ["a.metadata.json", "d"] ∧
    GoesTo linkedTree linkedFile ["a.metadata.json", "d"] := by
  have hlast (links : Nat) :
      linkedTree.Leads .newFile links ["d"] ["a.metadata.json"] ["a.metadata.json", "d"] :=
    .fresh ⟨by decide, by decide, by decide⟩ rfl rfl
  have hfollow : MayFollow .newFile ["a.metadata.json"] := by simp [MayFollow]
  have hd : IsName "d" := ⟨by decide, by decide, by decide⟩
  have he : IsName "e" := ⟨by decide, by decide, by decide⟩
  constructor
  · have hsegments : (⟨"/d/a.metadata.json"⟩ : Path).segments = ["", "d", "a.metadata.json"] := by
      decide
    rw [GoesTo, sidecarPath_linked.1, locate_eq_ok_iff (by decide), hsegments]
    exact ⟨⟨by decide, by decide⟩, .void (.inl rfl) (.down hd hfollow rfl (hlast _))⟩
  · have hsegments : (⟨"/e/a.metadata.json"⟩ : Path).segments = ["", "e", "a.metadata.json"] := by
      decide
    have htarget : (⟨"d"⟩ : Path).segments = ["d"] := by decide
    rw [GoesTo, sidecarPath_linked.2, locate_eq_ok_iff (by decide), hsegments]
    refine ⟨⟨by decide, by decide⟩, .void (.inl rfl) (.follow he hfollow (by simp) rfl ?_)⟩
    rw [htarget]
    exact .down hd hfollow rfl (hlast _)

/-- Both files are taken, the second with the first one's sidecar in place. -/
theorem exists_report_linkedTree : ∃ report, (run linkedRun linkedTree).result = .ok report := by
  have hread : linkedTree.read directFile.path = .ok "x".toUTF8 := by cbv
  have hplace : linkedTree.locate .target linkedFile.path = .ok ["a", "d"] := by cbv
  have haccepts : linkedTree.Accepts ["a.metadata.json", "d"] := by decide
  have hwrite := FileTree.write_of_locate goesTo_linkedTree.1 haccepts
    (sidecarBytes linkedRun.context directFile "x".toUTF8)
  generalize hu : linkedTree.put ["a.metadata.json", "d"] _ haccepts = u at hwrite
  have hgrows : linkedTree.GrowsTo u :=
    hu ▸ FileTree.growsTo_put (by decide) goesTo_linkedTree.1 haccepts _
  have hget : u.get? ["a", "d"] = some (.file "x".toUTF8) := by
    rw [← hu, FileTree.get?_put_of_ne haccepts (by decide)]
    rfl
  have hread' := FileTree.read_of_locate (hgrows.locate (by decide) hplace) hget
  have haccepts' : u.Accepts ["a.metadata.json", "d"] := by
    refine ⟨(hgrows.get?_iff (by simp)).mpr rfl, by decide, ?_⟩
    rw [← hu, FileTree.get?_put_self]
    simp
  have hwrite' := FileTree.write_of_locate
    ((hgrows.locate_newFile_iff (by decide)).mpr goesTo_linkedTree.2) haccepts'
    (sidecarBytes linkedRun.context linkedFile "x".toUTF8)
  exact ⟨_, run_eq_resultOf (by cbv) rfl resolve_linkedTree rfl
    (processAll_of_ok (process_of_written hread hwrite)
      (processAll_of_ok (process_of_written hread' hwrite') (processAll_nil ..)))⟩

theorem truthful_iff_linkedTree :
    ∃ report, (run linkedRun linkedTree).result = .ok report ∧
    ∃ root exclude files, canonicalRoot linkedTree linkedRun.root = .ok root ∧
      compileExcludes linkedRun.exclude = .ok exclude ∧
      resolve linkedTree root linkedRun.globs exclude = .ok files ∧
      files.length = report.files.length ∧
      ∀ k entry, report.files[k]? = some entry → ∃ file place there content,
        files[k]? = some file ∧ entry.path = file.relPath ∧ GoesTo linkedTree file place ∧
        (run linkedRun linkedTree).tree.locate .target (root.child entry.path) = .ok there ∧
        (run linkedRun linkedTree).tree.get? there = some (.file content) ∧
        (Truthful (run linkedRun linkedTree).tree root entry ↔
          (∀ later ∈ files.drop (k + 1), ¬GoesTo linkedTree later place) ∧
            entry.sha256 = Digest.sha256 content.toList) ∧
        ((∀ writer ∈ files.drop k, ¬GoesTo linkedTree writer there) →
          entry.sha256 = Digest.sha256 content.toList) :=
  have ⟨report, h⟩ := exists_report_linkedTree
  ⟨report, h, truthful_iff_of_run_ok rfl h⟩

/-- The sidecar of the first file has been replaced by that of the second, with the other path. -/
theorem not_truthful_linkedTree :
    ¬∀ (options : RunOptions) (t : FileTree) (report : Report), options.dryRun = false →
      (run options t).result = .ok report → ∀ root, canonicalRoot t options.root = .ok root →
        ∀ entry ∈ report.files, Truthful (run options t).tree root entry := by
  intro hall
  obtain ⟨report, h⟩ := exists_report_linkedTree
  obtain ⟨root, above, exclude, files, hroot, hisRoot, hexclude, hfiles, hstages⟩ :=
    stages_of_run_ok rfl h
  obtain rfl : root = ⟨"/"⟩ := by
    have hcanonical : canonicalRoot linkedTree linkedRun.root = .ok ⟨"/"⟩ := by cbv
    exact Except.ok.inj (hroot.symm.trans hcanonical)
  obtain rfl : exclude = [] := Except.ok.inj hexclude.symm
  obtain rfl : files = [directFile, linkedFile] :=
    Except.ok.inj (hfiles.symm.trans resolve_linkedTree)
  obtain ⟨entry, place, _, _, hentry, _, hgoes, _, _, hiff, _⟩ :=
    hstages.truthful_iff hisRoot hfiles (k := 0) rfl
  have hplace : place = ["a.metadata.json", "d"] :=
    Except.ok.inj (hgoes.symm.trans goesTo_linkedTree.1)
  have htruthful :=
    hall linkedRun linkedTree report rfl h _ hroot entry (List.mem_of_getElem? hentry)
  exact (hiff.mp htruthful).1 linkedFile (by simp) (hplace ▸ goesTo_linkedTree.2)

end Sidecar.Generation
