import Sidecar.Proofs.Generation
import Sidecar.Proofs.Growth

/-! The stages of a run on any tree, links included. Two paths can then lead to one file, so a later
sidecar may take the place of an earlier one or of a file that was described before. -/

namespace Sidecar

open Generation

theorem sidecarLocation_ne_nil {loc : Location} (h : loc ≠ []) : sidecarLocation loc ≠ [] := by
  cases loc with
  | nil => contradiction
  | cons => exact List.cons_ne_nil _ _

/-- The sidecar of an absolute path has an absolute path. -/
theorem isAbsolute_sidecarPath {p : Path} {loc : Location} (h : p.Spells loc) :
    (sidecarPath p).isAbsolute = true := by
  cases loc with
  | cons => exact (spells_sidecarPath h).isAbsolute
  | nil =>
    have hname : p.fileName? = none := by
      rw [Path.fileName?, show p.parts = [.root] from h]
      rfl
    have hjoin : sidecarPath p = p.child sidecarSuffix := by
      rw [sidecarPath, Path.withFileName, hname]
      rfl
    rw [hjoin]
    exact (h.child (by decide)).isAbsolute

/-- A file has its sidecar at a location. -/
def Generation.GoesTo (t : FileTree) (file : ResolvedFile) (loc : Location) : Prop :=
  t.locate .newFile (sidecarPath file.path) = .ok loc

theorem FileTree.GrowsTo.goesTo_iff {t u : FileTree} (h : t.GrowsTo u) {file : ResolvedFile}
    (habs : (sidecarPath file.path).isAbsolute = true) {loc : Location} :
    GoesTo u file loc ↔ GoesTo t file loc :=
  h.locate_newFile_iff habs

namespace Generation

/-- Files that are taken one after another, and what is told of each. -/
inductive Stages (ctx : RecordContext) :
    FileTree → List ResolvedFile → List ProcessedFile → FileTree → Prop where
  | nil {t} : Stages ctx t [] [] t
  | cons {t file content u files reports v} : t.read file.path = .ok content →
      t.write (sidecarPath file.path) (sidecarBytes ctx file content) = .ok u →
      Stages ctx u files reports v →
      Stages ctx t (file :: files)
        ((recordOf ctx file content).processed file.relPath :: reports) v

section

variable {ctx : RecordContext} {t u v : FileTree} {files : List ResolvedFile}
  {reports : List ProcessedFile} {failure : Option Failure}

/-- A run takes the files up to one that fails. -/
theorem stages_of_processAll (h : processAll ctx false t files = (reports, u, failure)) :
    ∃ taken, Stages ctx t taken reports u ∧ taken <+: files ∧
      (failure = none → taken = files) := by
  induction files generalizing t reports with
  | nil =>
    rw [processAll_nil, Prod.mk.injEq, Prod.mk.injEq] at h
    obtain ⟨rfl, rfl, _⟩ := h
    exact ⟨[], .nil, List.prefix_refl [], fun _ => rfl⟩
  | cons file files ih =>
    have hstop {e : Failure} (he : process ctx false t file = .error e) :
        ∃ taken, Stages ctx t taken reports u ∧ taken <+: file :: files ∧
          (failure = none → taken = file :: files) := by
      rw [processAll_of_error he, Prod.mk.injEq, Prod.mk.injEq] at h
      obtain ⟨rfl, rfl, rfl⟩ := h
      exact ⟨[], .nil, List.nil_prefix, by simp⟩
    cases hread : t.read file.path with
    | error => exact hstop (process_of_unreadable hread)
    | ok content =>
      cases hwrite : t.write (sidecarPath file.path) (sidecarBytes ctx file content) with
      | error => exact hstop (process_of_unwritable hread hwrite)
      | ok w =>
        obtain ⟨⟨more, u', failure'⟩, hrest⟩ : ∃ x, processAll ctx false w files = x := ⟨_, rfl⟩
        rw [processAll_of_ok (process_of_written hread hwrite) hrest, Prod.mk.injEq,
          Prod.mk.injEq] at h
        obtain ⟨rfl, rfl, rfl⟩ := h
        have ⟨taken, hstages, hprefix, hall⟩ := ih hrest
        refine ⟨file :: taken, .cons hread hwrite hstages, ?_, fun hnone => ?_⟩
        · exact List.cons_prefix_cons.mpr ⟨rfl, hprefix⟩
        · rw [hall hnone]

theorem Stages.length_eq (h : Stages ctx t files reports u) : reports.length = files.length := by
  induction h with
  | nil => rfl
  | cons _ _ _ ih => rw [List.length_cons, List.length_cons, ih]

/-- The stage at which a file is taken. -/
theorem Stages.at (h : Stages ctx t files reports u) {k : Nat} {file : ResolvedFile}
    (hfile : files[k]? = some file) :
    ∃ v content w, Stages ctx t (files.take k) (reports.take k) v ∧
      v.read file.path = .ok content ∧
      v.write (sidecarPath file.path) (sidecarBytes ctx file content) = .ok w ∧
      reports[k]? = some ((recordOf ctx file content).processed file.relPath) ∧
      Stages ctx w (files.drop (k + 1)) (reports.drop (k + 1)) u := by
  induction h generalizing k with
  | nil => simp at hfile
  | @cons t first content w files reports u hread hwrite hrest ih =>
    cases k with
    | zero =>
      obtain rfl : first = file := by simpa using hfile
      exact ⟨t, content, w, .nil, hread, hwrite, rfl, hrest⟩
    | succ k =>
      have hfile' : files[k]? = some file := by simpa using hfile
      have ⟨v, old, x, hbefore, hread', hwrite', hreport, hafter⟩ := ih hfile'
      exact ⟨v, old, x, .cons hread hwrite hbefore, hread', hwrite', by simpa using hreport, hafter⟩

theorem Stages.grows (h : Stages ctx t files reports u)
    (habs : ∀ f ∈ files, (sidecarPath f.path).isAbsolute = true) : t.GrowsTo u := by
  induction h with
  | nil => exact FileTree.growsTo_refl _
  | cons _ hwrite _ ih =>
    obtain ⟨loc, accepts, hl, rfl⟩ := FileTree.write_eq_ok hwrite
    have hput := FileTree.growsTo_put (habs _ List.mem_cons_self) hl accepts
    exact (hput _).trans (ih fun f hf => habs f (List.mem_cons_of_mem _ hf))

/-- A place holds what the last sidecar that goes there says, or what it held. -/
theorem Stages.get?_eq (h : Stages ctx t files reports u)
    (habs : ∀ f ∈ files, (sidecarPath f.path).isAbsolute = true) (loc : Location) :
    (∀ f ∈ files, ¬GoesTo t f loc) ∧ u.get? loc = t.get? loc ∨
      ∃ f ∈ files, GoesTo t f loc ∧
        ∃ content, u.get? loc = some (.file (sidecarBytes ctx f content)) := by
  induction h with
  | nil => exact .inl ⟨by simp, rfl⟩
  | @cons t file content w files reports u _ hwrite _ ih =>
    obtain ⟨place, accepts, hl, rfl⟩ := FileTree.write_eq_ok hwrite
    have habs' : ∀ f ∈ files, (sidecarPath f.path).isAbsolute = true :=
      fun f hf => habs f (List.mem_cons_of_mem _ hf)
    have hput := FileTree.growsTo_put (habs _ List.mem_cons_self) hl accepts
      (sidecarBytes ctx file content)
    cases ih habs' with
    | inr hlater =>
      have ⟨f, hf, hto, hget⟩ := hlater
      exact .inr ⟨f, List.mem_cons_of_mem _ hf, (hput.goesTo_iff (habs' f hf)).mp hto, hget⟩
    | inl hkept =>
      have ⟨hnone, hget⟩ := hkept
      by_cases heq : loc = place
      · refine .inr ⟨file, List.mem_cons_self, heq ▸ hl, content, ?_⟩
        rw [hget, heq, FileTree.get?_put_self]
      · refine .inl ⟨fun f hf => ?_, hget.trans (FileTree.get?_put_of_ne accepts heq)⟩
        cases List.mem_cons.mp hf with
        | inl hfirst =>
          rw [hfirst]
          exact fun hto => heq (Except.ok.inj (hto.symm.trans hl))
        | inr hf => exact fun hto => hnone f hf ((hput.goesTo_iff (habs' f hf)).mpr hto)

end

/-- A file that lies under a root by its path. -/
structure LiesUnder (above : Location) (file : ResolvedFile) (names : List String) : Prop where
  spells : file.path.Spells (names.reverse ++ above)
  relPath_eq : file.relPath = "/".intercalate names

theorem liesUnder_of_mem_resolve {t : FileTree} {root : Path} {above : Location}
    (hroot : IsRoot t root above) {patterns : List String} {exclude : List Glob.Pattern}
    {files : List ResolvedFile} (h : resolve t root patterns exclude = .ok files)
    {file : ResolvedFile} (hf : file ∈ files) : ∃ names, LiesUnder above file names := by
  have ⟨⟨_, _, _, _, _, hrel⟩, _⟩ := finds_of_mem_resolve h hf
  have ⟨names, hspells, hrelPath⟩ := (relativePath_eq_ok_iff hroot.spells _ _).mp hrel
  exact ⟨names, hspells, hrelPath⟩

theorem isAbsolute_sidecarPath_of_mem_resolve {t : FileTree} {root : Path} {above : Location}
    (hroot : IsRoot t root above) {patterns : List String} {exclude : List Glob.Pattern}
    {files : List ResolvedFile} (h : resolve t root patterns exclude = .ok files) :
    ∀ f ∈ files, (sidecarPath f.path).isAbsolute = true := by
  intro f hf
  have ⟨names, hnames⟩ := liesUnder_of_mem_resolve hroot h hf
  exact isAbsolute_sidecarPath hnames.spells

/-- What is read at some stage is not the root, which is a directory. -/
theorem LiesUnder.ne_nil {t v : FileTree} {root : Path} {above : Location} {file : ResolvedFile}
    {names : List String} (h : LiesUnder above file names) (hroot : IsRoot t root above)
    (hnot : t.isDirectory file.path = false) {content : ByteArray}
    (hread : v.read file.path = .ok content) : names ≠ [] := by
  intro hnil
  have hspells : file.path.Spells above := by
    have := h.spells
    rwa [hnil, List.reverse_nil, List.nil_append] at this
  have ⟨_, hl, _⟩ := FileTree.read_eq_ok hread
  have hdir := FileTree.isDirectory_of_get? hspells hroot.isDirectory
    (FileTree.utf8ByteSize_lt_of_locate hl)
  rw [hnot] at hdir
  contradiction

theorem LiesUnder.name_above {above : Location} {file : ResolvedFile} {names : List String}
    (h : LiesUnder above file names) : ∀ n ∈ above, n ≠ "" ∧ '/' ∉ n.toList := by
  intro n hn
  have ⟨hvoid, _, _, hslash⟩ := h.spells.name (List.mem_append_right _ hn)
  exact ⟨hvoid, hslash⟩

section

variable {t u : FileTree} {root : Path} {above : Location} {file : ResolvedFile}
  {names : List String}

/-- The path of a file behind its root. -/
theorem LiesUnder.child_relPath (h : LiesUnder above file names) (hroot : IsRoot t root above)
    (hne : names ≠ []) : root.child file.relPath = ⟨FileTree.pathOf (names.reverse ++ above)⟩ := by
  rw [hroot.eq_pathOf, h.relPath_eq, child_intercalate h.name_above hne]

/-- The path of its sidecar behind the root. -/
theorem LiesUnder.child_sidecar (h : LiesUnder above file names) (hroot : IsRoot t root above)
    (hne : names ≠ []) : root.child (file.relPath ++ sidecarSuffix) =
      ⟨FileTree.pathOf (sidecarLocation (names.reverse ++ above))⟩ := by
  have ⟨last, before, hreverse⟩ := List.exists_cons_of_ne_nil (List.reverse_ne_nil_iff.mpr hne)
  have hnames : names = before.reverse ++ [last] := by
    rw [← List.reverse_cons, ← hreverse, List.reverse_reverse]
  have hrelPath : file.relPath ++ sidecarSuffix =
      "/".intercalate (before.reverse ++ [last ++ sidecarSuffix]) := by
    rw [h.relPath_eq, hnames, Text.intercalate_concat_append]
  rw [hroot.eq_pathOf, hrelPath, child_intercalate h.name_above (by simp), hreverse]
  simp [sidecarLocation]

/-- What is read once is a file still when others have been made, at the same place and by the
plain path as well. -/
theorem exists_place_of_read {v : FileTree} {p : Path} {loc : Location} {content : ByteArray}
    (hp : p.Spells loc) (hne : loc ≠ []) (hgrows : v.GrowsTo u) (hread : v.read p = .ok content) :
    ∃ place, u.locate .target ⟨FileTree.pathOf loc⟩ = .ok place ∧
      v.get? place = some (.file content) ∧ ∃ now, u.get? place = some (.file now) := by
  have ⟨place, hl, hget⟩ := FileTree.read_eq_ok hread
  exact ⟨place, FileTree.locate_pathOf hp hne (hgrows.locate hp.isAbsolute hl), hget,
    hgrows.get?_file hget⟩

theorem LiesUnder.sidecar (h : LiesUnder above file names) (hne : names ≠ []) :
    (sidecarPath file.path).Spells (sidecarLocation names.reverse ++ above) := by
  have hrev : names.reverse ≠ [] := List.reverse_ne_nil_iff.mpr hne
  rw [← sidecarLocation_append hrev]
  exact h.spells.sidecar (List.append_ne_nil_of_left_ne_nil hrev above)

/-- What stands where a sidecar was written is read by the path of the sidecar. -/
theorem LiesUnder.read_sidecar {v : FileTree} {place : Location} {bytes : ByteArray}
    (h : LiesUnder above file names) (hroot : IsRoot t root above) (hne : names ≠ [])
    (hgrows : v.GrowsTo u) (hplace : GoesTo v file place)
    (hbytes : u.get? place = some (.file bytes)) :
    u.read (root.child (file.relPath ++ sidecarSuffix)) = .ok bytes := by
  have hloc : names.reverse ++ above ≠ [] := by simp [hne]
  have hspells := h.spells.sidecar hloc
  have hnew := hgrows.locate hspells.isAbsolute hplace
  have htarget := FileTree.locate_target_of_newFile hspells.isAbsolute hnew hbytes
  have hplain := FileTree.locate_pathOf hspells (sidecarLocation_ne_nil hloc) htarget
  rw [h.child_sidecar hroot hne]
  exact FileTree.read_of_locate hplain hbytes

end

end Generation

end Sidecar
