import Sidecar.Proofs.Persistence
import Sidecar.Proofs.Reselection
import Sidecar.Proofs.Stages

/-! Trees with the sidecars of files, compared. What a sidecar says and where it goes depends on the
relative path of its file alone, so the sidecars of some files and then of others are those of all
of them, and the same relative paths make the same tree. -/

namespace Sidecar

open Generation

/-- Two spellings of one path give one record. -/
theorem Generation.recordOf_congr {ctx : RecordContext} {f g : ResolvedFile}
    (hpath : f.path.Same g.path) (hrel : f.relPath = g.relPath) (content : ByteArray) :
    recordOf ctx f content = recordOf ctx g content := by
  have hname : f.path.fileName? = g.path.fileName? := by
    rw [Path.fileName?, Path.fileName?, show f.path.parts = g.path.parts from hpath]
  simp only [recordOf, Record.assemble, hrel, Path.stem, Identity.mediaType, Path.extension?, hname]

namespace Generation

/-! Files that can be taken. -/

/-- A file that can be read and whose sidecar can be written. -/
def Takable (t : FileTree) (file : ResolvedFile) : Prop :=
  (∃ content, t.read file.path = .ok content) ∧ ∃ loc, GoesTo t file loc ∧ t.Accepts loc

section

variable {ctx : RecordContext} {t u v : FileTree} {file other : ResolvedFile}

theorem takable_iff (ctx : RecordContext) :
    Takable t file ↔ ∀ e, ¬Fails ctx false t file e := by
  refine ⟨fun ⟨⟨content, hread⟩, loc, hl, accepts⟩ e hfails => ?_, fun hfine => ?_⟩
  · cases hfails with
    | read h =>
      rw [hread] at h
      contradiction
    | write _ _ hwrite =>
      rw [FileTree.write_of_locate hl accepts] at hwrite
      contradiction
  · cases hread : t.read file.path with
    | error cause => exact absurd (.read hread) (hfine _)
    | ok content =>
      cases hwrite : t.write (sidecarPath file.path) (sidecarBytes ctx file content) with
      | error cause => exact absurd (.write rfl hread hwrite) (hfine _)
      | ok w =>
        have ⟨loc, accepts, hl, _⟩ := FileTree.write_eq_ok hwrite
        exact ⟨⟨content, hread⟩, loc, hl, accepts⟩

/-- Files that are made elsewhere do not change what can be taken. -/
theorem takable_iff_of_growsTo (h : t.GrowsTo u)
    (habs : (sidecarPath file.path).isAbsolute = true)
    (hread : u.read file.path = t.read file.path) : Takable u file ↔ Takable t file := by
  simp only [Takable, hread, h.goesTo_iff habs, h.accepts_iff]

end

/-! Trees with the sidecars of files. -/

section

variable {ctx : RecordContext} {t u v : FileTree} {above : Location} {file other : ResolvedFile}
  {files more done : List ResolvedFile} {names : List String}

theorem IsTarget.names_eq {names' : List String} (hf : IsTarget t above file names)
    (ho : IsTarget t above other names') (h : other.relPath = file.relPath) : names' = names := by
  have hnamed {g : ResolvedFile} {xs : List String} (hg : IsTarget t above g xs) :
      ∀ n ∈ xs, n ≠ "" ∧ '/' ∉ n.toList := by
    intro n hn
    have ⟨h1, _, _, h4⟩ := hg.spells.name (List.mem_append_left _ (List.mem_reverse.mpr hn))
    exact ⟨h1, h4⟩
  rw [hf.relPath_eq, ho.relPath_eq] at h
  exact Text.intercalate_inj (hnamed ho) (hnamed hf) h

theorem IsTarget.same {names' : List String} (hf : IsTarget t above file names)
    (ho : IsTarget t above other names') (h : other.relPath = file.relPath) :
    other.path.Same file.path := by
  have hspells := ho.spells
  rw [hf.names_eq ho h] at hspells
  exact Eq.trans hspells hf.spells.symm

/-- What is read by two spellings of one path is the same. -/
theorem read_eq_of_same {p q : Path} {loc : Location} (hp : p.Spells loc) (hsame : q.Same p)
    (hfree : t.LinkFreeAlong loc) {content bytes : ByteArray} (hread : t.read p = .ok content)
    (hother : t.read q = .ok bytes) : bytes = content := by
  have hget := FileTree.get?_of_read hp hfree hread
  rw [FileTree.get?_of_read (Eq.trans hsame hp) hfree hother] at hget
  exact Entry.file.inj (Option.some.inj hget)

/-- Files of one relative path have one sidecar. -/
theorem IsTarget.sidecarBytes_eq {names' : List String} (hf : IsTarget t above file names)
    (ho : IsTarget t above other names') (hdir : t.get? above = some .directory)
    (hfree : t.LinkFreeBelow above) (h : other.relPath = file.relPath) {content bytes : ByteArray}
    (hread : t.read file.path = .ok content) (hother : t.read other.path = .ok bytes) :
    sidecarBytes ctx other bytes = sidecarBytes ctx file content := by
  have hsame := hf.same ho h
  rw [read_eq_of_same hf.spells hsame (hfree.along hdir _) hread hother, sidecarBytes, sidecarBytes,
    recordOf_congr hsame h]

theorem WithSidecars.growsTo (hu : WithSidecars ctx t files u)
    (habs : ∀ f ∈ files, (sidecarPath f.path).isAbsolute = true) : t.GrowsTo u := by
  intro loc
  by_cases h : ∃ f ∈ files, GoesTo t f loc
  · have ⟨f, hf, hgoes⟩ := h
    have ⟨content, place, _, hl, hnew, hget⟩ := hu.written f hf
    obtain rfl : place = loc := Except.ok.inj (hl.symm.trans hgoes)
    refine .inr ⟨_, hget, ?_⟩
    have hlink := ((FileTree.locate_eq_ok_iff (habs f hf)).mp hl).2.not_link (by simp) rfl
    cases hold : t.get? place with
    | none => exact .inl rfl
    | some e =>
      cases e with
      | directory => exact absurd hold hnew
      | file old => exact .inr ⟨old, rfl⟩
      | link target => exact absurd hold (hlink target)
  · exact .inl (hu.kept loc fun f hf hgoes => h ⟨f, hf, hgoes⟩)

/-- Files that lie below a directory under which there are no links. -/
structure Targets (t : FileTree) (above : Location) (files : List ResolvedFile) : Prop where
  isDirectory : t.get? above = some .directory
  linkFree : t.LinkFreeBelow above
  isTarget : ∀ f ∈ files, ∃ names, IsTarget t above f names

theorem Targets.isAbsolute (h : Targets t above files) :
    ∀ f ∈ files, (sidecarPath f.path).isAbsolute = true := by
  intro f hf
  have ⟨names, hnames⟩ := h.isTarget f hf
  exact isAbsolute_sidecarPath hnames.spells

theorem Targets.of_subset (h : Targets t above files) (hsub : more ⊆ files) :
    Targets t above more :=
  ⟨h.isDirectory, h.linkFree, fun f hf => h.isTarget f (hsub hf)⟩

theorem Targets.left (h : Targets t above (files ++ more)) : Targets t above files :=
  h.of_subset (List.subset_append_left files more)

theorem Targets.right (h : Targets t above (files ++ more)) : Targets t above more :=
  h.of_subset (List.subset_append_right files more)

theorem Targets.append (h : Targets t above files) (h' : Targets t above more) :
    Targets t above (files ++ more) :=
  ⟨h.isDirectory, h.linkFree,
    fun f hf => (List.mem_append.mp hf).elim (h.isTarget f) (h'.isTarget f)⟩

/-- A file that goes to a place of another has its relative path. -/
theorem Targets.relPath_eq (h : Targets t above files) (hfile : file ∈ files)
    (hother : other ∈ files) {loc : Location} (hgoes : GoesTo t file loc)
    (hgoes' : GoesTo t other loc) (hread : ∃ content, t.read file.path = .ok content)
    (hread' : ∃ content, t.read other.path = .ok content) : other.relPath = file.relPath := by
  have ⟨_, hf⟩ := h.isTarget file hfile
  have ⟨_, ho⟩ := h.isTarget other hother
  have hne := hf.ne_nil h.isDirectory h.linkFree hread.choose_spec
  have hne' := ho.ne_nil h.isDirectory h.linkFree hread'.choose_spec
  have hloc := hf.place_eq hne h.isDirectory h.linkFree hgoes
  have hloc' := ho.place_eq hne' h.isDirectory h.linkFree hgoes'
  exact hf.place_inj ho hne hne' (hloc'.symm.trans hloc)

/-- Files of one relative path go to one place. -/
theorem Targets.goesTo_eq (h : Targets t above files) (hfile : file ∈ files)
    (hother : other ∈ files) (hrel : other.relPath = file.relPath) {loc place : Location}
    (hgoes : GoesTo t file loc) (hgoes' : GoesTo t other place)
    (hread : ∃ content, t.read file.path = .ok content) : place = loc := by
  have ⟨names, hf⟩ := h.isTarget file hfile
  have ⟨names', ho⟩ := h.isTarget other hother
  have hne := hf.ne_nil h.isDirectory h.linkFree hread.choose_spec
  obtain rfl := hf.names_eq ho hrel
  rw [hf.place_eq hne h.isDirectory h.linkFree hgoes,
    ho.place_eq hne h.isDirectory h.linkFree hgoes']

/-- What the sidecars of a tree say does not depend on how a file is spelled. -/
theorem Targets.sidecarBytes_eq (h : Targets t above files) (hfile : file ∈ files)
    (hother : other ∈ files) (hrel : other.relPath = file.relPath) {content bytes : ByteArray}
    (hread : t.read file.path = .ok content) (hread' : t.read other.path = .ok bytes) :
    sidecarBytes ctx other bytes = sidecarBytes ctx file content := by
  have ⟨_, hf⟩ := h.isTarget file hfile
  have ⟨_, ho⟩ := h.isTarget other hother
  exact hf.sidecarBytes_eq ho h.isDirectory h.linkFree hrel hread hread'

theorem WithSidecars.gainsSidecars (hu : WithSidecars ctx t files u) (h : Targets t above files) :
    t.GainsSidecars u := by
  refine ⟨hu.growsTo h.isAbsolute, fun name dir hchanged => ?_⟩
  by_contra hname
  refine hchanged (hu.kept _ fun f hf hgoes => hname ?_)
  have ⟨_, _, hread, _⟩ := hu.written f hf
  have ⟨names, hnames⟩ := h.isTarget f hf
  have hne := hnames.ne_nil h.isDirectory h.linkFree hread
  have hloc := hnames.place_eq hne h.isDirectory h.linkFree hgoes
  have ⟨last, before, hlast⟩ := List.exists_cons_of_ne_nil (List.reverse_ne_nil_iff.mpr hne)
  rw [hlast] at hloc
  rw [(List.cons.inj hloc).1, String.toList_append]
  exact List.suffix_append _ _

theorem WithSidecars.read_eq (hu : WithSidecars ctx t done u) (h : Targets t above (done ++ files))
    (hfile : file ∈ files) : u.read file.path = t.read file.path := by
  have ⟨names, hf⟩ := h.isTarget file (List.mem_append_right _ hfile)
  exact FileTree.read_congr hf.spells (h.linkFree.along h.isDirectory _)
    (hu.agree_file h.isDirectory h.linkFree h.left.isTarget hf)

/-- The sidecars of some files and then of more are the sidecars of all of them. -/
theorem WithSidecars.trans (hu : WithSidecars ctx t files u) (hv : WithSidecars ctx u more v)
    (h : Targets t above (files ++ more)) : WithSidecars ctx t (files ++ more) v := by
  have hgrows := hu.growsTo h.left.isAbsolute
  have hgoes {f : ResolvedFile} (hf : f ∈ more) {loc : Location} :
      GoesTo u f loc ↔ GoesTo t f loc := hgrows.goesTo_iff (h.right.isAbsolute f hf)
  refine ⟨fun f hf => ?_, fun loc hnone => ?_, hv.workingDirectory.trans hu.workingDirectory⟩
  · cases List.mem_append.mp hf with
    | inr hmore =>
      have ⟨content, loc, hread, hl, hnew, hget⟩ := hv.written f hmore
      rw [hu.read_eq h hmore] at hread
      refine ⟨content, loc, hread, (hgoes hmore).mp hl, ?_, hget⟩
      rwa [ne_eq, ← hgrows.get?_iff (by simp)]
    | inl hfiles =>
      have ⟨content, loc, hread, hl, hnew, hget⟩ := hu.written f hfiles
      refine ⟨content, loc, hread, hl, hnew, ?_⟩
      by_cases hagain : ∃ g ∈ more, GoesTo u g loc
      · have ⟨g, hg, hto⟩ := hagain
        have ⟨bytes, place, hread', hl', _, hget'⟩ := hv.written g hg
        obtain rfl : place = loc := Except.ok.inj (hl'.symm.trans hto)
        rw [hu.read_eq h hg] at hread'
        have hmem : g ∈ files ++ more := List.mem_append_right _ hg
        have hrel := h.relPath_eq hf hmem hl ((hgoes hg).mp hto) ⟨_, hread⟩ ⟨_, hread'⟩
        rw [hget', h.sidecarBytes_eq hf hmem hrel hread hread']
      · rw [hv.kept loc fun g hg hto => hagain ⟨g, hg, hto⟩, hget]
  · rw [hv.kept loc fun g hg hto => hnone g (List.mem_append_right _ hg) ((hgoes hg).mp hto),
      hu.kept loc fun f hf => hnone f (List.mem_append_left _ hf)]

/-- The sidecars of the same relative paths make the same tree. -/
theorem WithSidecars.sameEntries (hu : WithSidecars ctx t files u) (hv : WithSidecars ctx t more v)
    (h : Targets t above (files ++ more)) (hfiles : ∀ f ∈ files, ∃ g ∈ more, g.relPath = f.relPath)
    (hmore : ∀ g ∈ more, ∃ f ∈ files, f.relPath = g.relPath) : u.SameEntries v := by
  intro loc
  by_cases hto : ∃ f ∈ files, GoesTo t f loc
  · have ⟨f, hf, hgoes⟩ := hto
    have ⟨g, hg, hrel⟩ := hfiles f hf
    have ⟨content, place, hread, hl, _, hget⟩ := hu.written f hf
    have ⟨bytes, place', hread', hl', _, hget'⟩ := hv.written g hg
    have hf' : f ∈ files ++ more := List.mem_append_left _ hf
    have hg' : g ∈ files ++ more := List.mem_append_right _ hg
    obtain rfl : place = loc := Except.ok.inj (hl.symm.trans hgoes)
    obtain rfl := h.goesTo_eq hf' hg' hrel hl hl' ⟨_, hread⟩
    rw [hget, hget', h.sidecarBytes_eq hf' hg' hrel hread hread']
  · rw [hu.kept loc fun f hf hgoes => hto ⟨f, hf, hgoes⟩, hv.kept loc fun g hg hgoes => ?_]
    have ⟨f, hf, hrel⟩ := hmore g hg
    have ⟨content, place, hread, hl, _⟩ := hu.written f hf
    have ⟨bytes, _, hread', _⟩ := hv.written g hg
    obtain rfl := h.goesTo_eq (List.mem_append_right _ hg) (List.mem_append_left _ hf) hrel hgoes hl
      ⟨_, hread'⟩
    exact hto ⟨f, hf, hl⟩

end

end Generation

end Sidecar
