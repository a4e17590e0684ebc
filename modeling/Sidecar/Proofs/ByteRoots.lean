import Sidecar.Proofs.ByteRelative
import Sidecar.Proofs.Relocation

/-! Roots that are not text. Patterns are spelled under the root as it is shown, but relative paths
are cut at the root as it is. Where the two differ nothing is found under the root, so that two
directories with the same content are not treated alike. -/

namespace Sidecar

open Selection

namespace BytePath

/-- Only under names that are text does a path lie that is text. -/
theorem exists_text_of_relativePath {root : BytePath} {path : Path} {relPath : String}
    (h : relativePath root path = .ok relPath) {n : List UInt8}
    (hn : .name (spell n) ∈ root.spelled.parts) : ∃ s, Text.utf8 s = n := by
  obtain ⟨names, hnames, -⟩ := relativePath_eq_ok_iff.mp h
  rw [LeadsDown, Sidecar.LeadsDown, Path.parts_spelled] at hnames
  cases hnames with
  | inl hparts =>
    have hmem : .name (spell n) ∈ path.parts.map Path.Part.spelled := by
      rw [hparts]
      exact List.mem_append_left _ hn
    obtain ⟨part, -, hpart⟩ := List.mem_map.mp hmem
    cases part with
    | name s => exact ⟨s, spell_injective (Path.Part.name.inj hpart)⟩
    | root | here | parent => contradiction
  | inr hparts =>
    rw [Path.parts, if_pos hparts.1] at hn
    contradiction

/-- Some name in the path is not text. -/
def HasStrangeName (p : BytePath) : Prop :=
  ∃ n, .name (spell n) ∈ p.spelled.parts ∧ ∀ s, Text.utf8 s ≠ n

end BytePath

section

variable {t : FileTree} {root : BytePath} {patterns : List String} {exclude : List Glob.Pattern}
  {files : List ResolvedFile} {steps : List Step}

theorem filesOf_of_hasStrangeName (hroot : root.HasStrangeName) (paths : List Path) :
    (filesOf root paths).1 = [] := by
  obtain ⟨n, hn, hstrange⟩ := hroot
  cases paths with
  | nil => rfl
  | cons p paths =>
    rw [filesOf]
    cases hp : BytePath.relativePath root p with
    | error e => rfl
    | ok relPath =>
      obtain ⟨s, hs⟩ := BytePath.exists_text_of_relativePath hp hn
      exact absurd hs (hstrange s)

theorem stepsOf_of_hasStrangeName (hroot : root.HasStrangeName) {pattern : String}
    (h : stepsOf t root pattern = (steps, none)) : ∀ f, .found f ∉ steps := by
  unfold stepsOf at h
  split at h
  next => simp at h
  next => simp [← (Prod.mk.inj h).1]
  next =>
    rw [← (Prod.mk.inj h).1, filesOf_of_hasStrangeName hroot]
    simp

theorem survey_of_hasStrangeName (hroot : root.HasStrangeName)
    (h : survey t root patterns = (steps, none)) : ∀ f, .found f ∉ steps := by
  induction patterns generalizing steps with
  | nil => simp [← (Prod.mk.inj h).1]
  | cons p patterns ih =>
    rw [survey] at h
    split at h
    next => simp at h
    next hfirst =>
      obtain ⟨hsteps, hfailure⟩ := Prod.mk.inj h
      intro f hf
      rw [← hsteps, List.mem_append] at hf
      cases hf with
      | inl hf => exact stepsOf_of_hasStrangeName hroot hfirst f hf
      | inr hf => exact ih (Prod.ext rfl hfailure) f hf

theorem decisions_of_not_found (h : ∀ f, .found f ∉ steps) (seen : List String) :
    (decisions t exclude seen steps).filterMap Decision.selected? = [] := by
  induction steps with
  | nil => rfl
  | cons step steps ih =>
    cases step with
    | found f => exact absurd List.mem_cons_self (h f)
    | nothing p => exact ih fun f hf => h f (List.mem_cons_of_mem _ hf)

/-- Under a root that is not text no pattern selects a file. -/
theorem resolveUnder_of_hasStrangeName (hroot : root.HasStrangeName)
    (h : resolveUnder t root patterns exclude = .ok files) : files = [] := by
  unfold resolveUnder at h
  split at h
  next => simp at h
  next steps hsurvey =>
    rw [← Except.ok.inj h]
    exact decisions_of_not_found (survey_of_hasStrangeName hroot hsurvey) []

end

/-! A directory and its copy, the one with a name that is not text. -/

/-- A file system whose names need not be text: what stands at a location, its last name first. -/
structure ByteTree where
  get? : List (List UInt8) → Option Entry

/-- The tree has all that stands behind names that are text. -/
def ByteTree.IsShownBy (o : ByteTree) (t : FileTree) : Prop :=
  ∀ loc : Location, t.get? loc = o.get? (loc.map Text.utf8)

/-- Two directories that hold the same content, without links. -/
structure ByteTree.IsCopy (o : ByteTree) (a b : List (List UInt8)) : Prop where
  isDirectory : o.get? a = some .directory
  get?_eq : ∀ below, o.get? (below ++ b) = o.get? (below ++ a)
  linkFree : ∀ below target, o.get? (below ++ a) ≠ some (.link target)

namespace Generation

/-- The directories `a` and `b\xff`, each with a file `x.csv`. -/
def twoRoots : ByteTree where
  get?
    | [] => some .directory
    | [n] => if n = Text.utf8 "a" ∨ n = [0x62, 0xff] then some .directory else none
    | [f, n] =>
      if f = Text.utf8 "x.csv" ∧ (n = Text.utf8 "a" ∨ n = [0x62, 0xff]) then
        some (.file "x".toUTF8)
      else none
    | _ => none

theorem empty_accepts_a : FileTree.empty.Accepts ["a"] := by
  decide

theorem accepts_csvFile :
    (FileTree.empty.put ["a"] .directory empty_accepts_a).Accepts ["x.csv", "a"] := by
  decide

/-- What of it is text. -/
def shownRoot : FileTree :=
  (FileTree.empty.put ["a"] .directory empty_accepts_a).put ["x.csv", "a"] (.file "x".toUTF8)
    accepts_csvFile

def csvRun : RunOptions :=
  { onlyFileRun with globs := ["x.csv"], dryRun := true }

theorem isShownBy_shownRoot : twoRoots.IsShownBy shownRoot := by
  have hstrange (n : String) : Text.utf8 n ≠ [0x62, 0xff] := by
    intro h
    have hn : n = "b\ufffd" := by
      rw [← Text.decode_utf8 n, h]
      decide
    rw [hn] at h
    exact absurd h (by decide)
  intro loc
  by_cases hfile : loc = ["x.csv", "a"]
  · rw [hfile, shownRoot, FileTree.get?_put_self]
    decide
  rw [shownRoot, FileTree.get?_put_of_ne _ hfile]
  by_cases hdir : loc = ["a"]
  · rw [hdir, FileTree.get?_put_self]
    decide
  rw [FileTree.get?_put_of_ne _ hdir]
  match loc with
  | [] => rfl
  | [n] =>
    have hn : Text.utf8 n ≠ Text.utf8 "a" := fun h => hdir (by rw [Text.utf8_injective h])
    simp [twoRoots, hn, hstrange, FileTree.get?, FileTree.empty]
  | [f, n] =>
    have hn : ¬(Text.utf8 f = Text.utf8 "x.csv" ∧ Text.utf8 n = Text.utf8 "a") :=
      fun h => hfile (by rw [Text.utf8_injective h.1, Text.utf8_injective h.2])
    simp [twoRoots, hn, hstrange, FileTree.get?, FileTree.empty]
  | _ :: _ :: _ :: _ => rfl

theorem isCopy_twoRoots : twoRoots.IsCopy [Text.utf8 "a"] [[0x62, 0xff]] where
  isDirectory := by decide
  get?_eq
    | [] => by decide
    | [f] => by simp [twoRoots]
    | [_, _] | _ :: _ :: _ :: _ => rfl
  linkFree
    | [], target => by simp [twoRoots]
    | [f], target => by simp [twoRoots]
    | [_, _], target | _ :: _ :: _ :: _, target => by simp [twoRoots]

theorem not_run_relocated :
    twoRoots.IsShownBy shownRoot ∧ twoRoots.IsCopy [Text.utf8 "a"] [[0x62, 0xff]] ∧
    canonicalRoot shownRoot ⟨"/a"⟩ = .ok ⟨"/a"⟩ ∧
    (∀ glob ∈ csvRun.globs, Glob.StaysDown glob) ∧
    ¬EndsAlike (runUnder csvRun shownRoot (⟨"/a"⟩ : Path) []).result
      (runUnder csvRun shownRoot ⟨Text.utf8 "/b" ++ [0xff]⟩ []).result := by
  have hglobs : ∀ glob ∈ csvRun.globs, Glob.StaysDown glob := by
    have hpieces : Text.piecesOf '/' "x.csv" = ["x.csv"] := by decide
    simpa [csvRun] using ⟨by simp [hpieces], by simp [hpieces]⟩
  have hroot : canonicalRoot shownRoot ⟨"/a"⟩ = .ok ⟨"/a"⟩ := by cbv
  have hread : shownRoot.read ⟨"/a/x.csv"⟩ = .ok "x".toUTF8 := by cbv
  have hfiles : resolveUnder shownRoot (⟨"/a"⟩ : Path) csvRun.globs [] =
      .ok [⟨⟨"/a/x.csv"⟩, "x.csv"⟩] := by
    cbv
  have hnone : resolveUnder shownRoot ⟨Text.utf8 "/b" ++ [0xff]⟩ csvRun.globs [] = .ok [] := by cbv
  have hresult := (runUnder_eq_ofFiles hfiles).1.trans
    (ofFiles_eq_resultOf rfl (processAll_of_ok (process_dryRun hread) (processAll_nil ..)))
  have hempty := (runUnder_eq_ofFiles hnone).1.trans
    (ofFiles_eq_resultOf rfl (processAll_nil ..))
  refine ⟨isShownBy_shownRoot, isCopy_twoRoots, hroot, hglobs, ?_⟩
  rw [hresult, hempty]
  rintro (⟨report, hreport, hother⟩ | ⟨e, _, he, -⟩)
  · have hfiles := congrArg Report.files (Except.ok.inj (hreport.trans hother.symm))
    contradiction
  · contradiction

end Generation

end Sidecar
