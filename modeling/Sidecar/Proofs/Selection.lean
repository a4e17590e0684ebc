import Mathlib
import Sidecar.Proofs.UnderRoot

/-! What is selected under a root: exactly the files that some pattern comes upon and that neither
their kind, nor their name, nor an exclusion keeps out, each once. -/

namespace Sidecar

theorem mapM_id_eq_ok_iff {ε α : Type} {xs : List (Except ε α)} {ys : List α} :
    xs.mapM id = .ok ys ↔ xs = ys.map .ok := by
  induction xs generalizing ys with
  | nil =>
    rw [List.mapM_nil, List.nil_eq, List.map_eq_nil_iff]
    exact ⟨fun h => (Except.ok.inj h).symm, fun h => congrArg Except.ok h.symm⟩
  | cons x xs ih =>
    rw [List.mapM_cons]
    refine ⟨fun h => ?_, fun h => ?_⟩
    · cases x with
      | error => contradiction
      | ok y =>
        cases hxs : xs.mapM id with
        | error e =>
          rw [hxs] at h
          contradiction
        | ok more =>
          rw [hxs] at h
          rw [← Except.ok.inj h, List.map_cons, ih.mp hxs]
    · obtain ⟨y, more, rfl, rfl, hmore⟩ := List.map_eq_cons_iff.mp h.symm
      rw [ih.mpr hmore.symm]
      rfl

namespace Selection

open Glob

theorem pathsOf_eq_ok_iff {t : FileTree} {root : Path} {pattern : String} {paths : List Path} :
    pathsOf t root pattern = .ok paths ↔ ∃ (r : Route) (found : List Path),
      Route.parse (underRoot root pattern) = .ok r ∧
      expand t r.onlyDirectories (.at t ⟨"/"⟩) r.components = found.map .ok ∧
      paths = found.mergeSort Path.le := by
  rw [pathsOf]
  refine ⟨fun h => ?_, ?_⟩
  · cases hr : Route.parse (underRoot root pattern) with
    | error e =>
      rw [hr] at h
      contradiction
    | ok r =>
      cases hm : (expand t r.onlyDirectories (.at t ⟨"/"⟩) r.components).mapM id with
      | error e => simp [hr, Route.paths, hm, Except.mapError, Except.map, bind, Except.bind] at h
      | ok found =>
        simp only [hr, Route.paths, hm, Except.mapError, Except.map, bind, Except.bind,
          Except.ok.injEq] at h
        exact ⟨r, found, rfl, mapM_id_eq_ok_iff.mp hm, h.symm⟩
  · intro ⟨r, found, hr, hexpand, hpaths⟩
    simp only [hr, Route.paths, mapM_id_eq_ok_iff.mpr hexpand, Except.mapError, Except.map, bind,
      Except.bind, hpaths]

/-- What a pattern comes upon under a root, by what its own components find there. -/
theorem pathsOf_root_eq_ok_iff {t : FileTree} {root : Path} {above : Location}
    (hroot : IsRoot t root above) {pattern : String} {paths : List Path} :
    pathsOf t root pattern = .ok paths ↔ ∃ (comps : List Pattern) (found : List Path),
      comps.map Pattern.text = withoutFinalSlash (Text.piecesOf '/' (relative pattern)) ∧
      (∀ c ∈ comps, c.IsComponent) ∧
      expand t ((Text.piecesOf '/' (relative pattern)).getLast? == some "") (.at t root)
        (collapse comps) = found.map .ok ∧
      paths = found.mergeSort Path.le := by
  rw [pathsOf_eq_ok_iff]
  refine ⟨fun ⟨r, found, hr, hexpand, hpaths⟩ => ?_, ?_⟩
  · have ⟨comps, htext, hcomps, heq⟩ := (parse_underRoot hroot).mp hr
    rw [heq, expand_root hroot] at hexpand
    exact ⟨comps, found, htext, hcomps, hexpand, hpaths⟩
  · intro ⟨comps, found, htext, hcomps, hexpand, hpaths⟩
    refine ⟨_, found, (parse_underRoot hroot).mpr ⟨comps, htext, hcomps, rfl⟩, ?_, hpaths⟩
    rw [expand_root hroot, hexpand]

theorem filesOf_eq_none_iff {root : Path} {paths : List Path} {files : List ResolvedFile} :
    filesOf root paths = (files, none) ↔ files.map ResolvedFile.path = paths ∧
      ∀ f ∈ files, relativePath root f.path = .ok f.relPath := by
  induction paths generalizing files with
  | nil =>
    rw [filesOf, Prod.mk.injEq, List.map_eq_nil_iff]
    refine ⟨fun ⟨h, _⟩ => ⟨h.symm, ?_⟩, fun ⟨h, _⟩ => ⟨h.symm, rfl⟩⟩
    rw [← h]
    simp
  | cons p paths ih =>
    rw [filesOf, relativePath_inBytes]
    refine ⟨fun h => ?_, fun ⟨hpaths, hrel⟩ => ?_⟩
    · split at h
      next => simp at h
      next relPath hp =>
        have ⟨hfiles, hfailure⟩ := Prod.mk.inj h
        have ⟨hpaths, hrel⟩ := ih.mp (Prod.ext rfl hfailure)
        rw [← hfiles]
        refine ⟨congrArg (p :: ·) hpaths, fun f hf => ?_⟩
        cases List.mem_cons.mp hf with
        | inl h => rw [h, hp]
        | inr h => exact hrel f h
    · obtain ⟨f, more, rfl, rfl, hmore⟩ := List.map_eq_cons_iff.mp hpaths
      have hmore := ih.mpr ⟨hmore, fun x hx => hrel x (List.mem_cons_of_mem _ hx)⟩
      rw [hrel f List.mem_cons_self, hmore]

/-- A pattern comes upon a file, and all that it comes upon lies under the root. -/
def Finds (t : FileTree) (root : Path) (pattern : String) (file : ResolvedFile) : Prop :=
  ∃ paths, pathsOf t root pattern = .ok paths ∧ file.path ∈ paths ∧
    relativePath root file.path = .ok file.relPath

theorem mem_stepsOf {t : FileTree} {root : Path} {pattern : String} {steps : List Step}
    (h : stepsOf t root pattern = (steps, none)) {file : ResolvedFile} :
    .found file ∈ steps ↔ Finds t root pattern file := by
  have hfinds {paths : List Path} (hp : pathsOf t root pattern = .ok paths) :
      Finds t root pattern file ↔
        file.path ∈ paths ∧ relativePath root file.path = .ok file.relPath := by
    rw [Finds, hp]
    simp
  unfold stepsOf at h
  split at h
  next => simp at h
  next hp =>
    rw [← (Prod.mk.inj h).1, hfinds hp]
    simp
  next paths _ hp =>
    have ⟨hsteps, hfailure⟩ := Prod.mk.inj h
    have ⟨hpaths, hrel⟩ := filesOf_eq_none_iff.mp (Prod.ext rfl hfailure)
    rw [← hsteps, hfinds hp, List.mem_map]
    refine ⟨fun ⟨f, hf, heq⟩ => ?_, fun ⟨hmem, hfile⟩ => ?_⟩
    · rw [← Step.found.inj heq]
      exact ⟨hpaths ▸ List.mem_map_of_mem hf, hrel f hf⟩
    · rw [← hpaths] at hmem
      have ⟨f, hf, hpath⟩ := List.mem_map.mp hmem
      have hrelPath := hrel f hf
      rw [hpath, hfile] at hrelPath
      have heq : f = file := by
        cases f
        cases file
        simp_all
      exact ⟨f, hf, congrArg Step.found heq⟩

theorem mem_survey {t : FileTree} {root : Path} {patterns : List String} {steps : List Step}
    (h : survey t root patterns = (steps, none)) {file : ResolvedFile} :
    .found file ∈ steps ↔ ∃ p ∈ patterns, Finds t root p file := by
  induction patterns generalizing steps with
  | nil =>
    rw [← (Prod.mk.inj h).1]
    simp
  | cons p patterns ih =>
    rw [survey] at h
    split at h
    next => simp at h
    next first hfirst =>
      have ⟨hsteps, hfailure⟩ := Prod.mk.inj h
      rw [← hsteps, List.mem_append, mem_stepsOf hfirst, ih (Prod.ext rfl hfailure)]
      simp

theorem filesOf_eq_none {root : Path} {paths : List Path}
    (hrel : ∀ p ∈ paths, ∃ relPath, relativePath root p = .ok relPath) :
    ∃ files, filesOf root paths = (files, none) := by
  induction paths with
  | nil => exact ⟨[], rfl⟩
  | cons p paths ih =>
    have ⟨relPath, hp⟩ := hrel p List.mem_cons_self
    have ⟨files, hfiles⟩ := ih fun q hq => hrel q (List.mem_cons_of_mem _ hq)
    refine ⟨⟨p, relPath⟩ :: files, ?_⟩
    rw [filesOf, relativePath_inBytes, hp, hfiles]

/-- A pattern whose paths all lie under the root ends its part of a survey without failure. -/
theorem stepsOf_eq_none {t : FileTree} {root : Path} {pattern : String} {paths : List Path}
    (h : pathsOf t root pattern = .ok paths)
    (hrel : ∀ p ∈ paths, ∃ relPath, relativePath root p = .ok relPath) :
    ∃ steps, stepsOf t root pattern = (steps, none) := by
  have ⟨files, hfiles⟩ := filesOf_eq_none hrel
  rw [stepsOf, h]
  cases paths with
  | nil => exact ⟨_, rfl⟩
  | cons => exact ⟨files.map .found, by simp only [hfiles]⟩

/-- A file is selected when it is neither a directory, nor a sidecar, nor excluded. -/
theorem judge_eq_selected_iff {t : FileTree} {exclude : List Pattern}
    {file selected : ResolvedFile} :
    judge t exclude file = .selected selected ↔ selected = file ∧
      t.isDirectory file.path = false ∧ isSidecar file.path = false ∧
      exclude.any (·.matches file.relPath) = false := by
  rw [judge, ← List.isSome_find?]
  cases t.isDirectory file.path with
  | true => simp
  | false =>
    cases isSidecar file.path with
    | true => simp
    | false =>
      cases exclude.find? (·.matches file.relPath) with
      | some p => simp
      | none => simp [eq_comm]

/-- The files that are kept of those that a survey came upon. -/
def selected (t : FileTree) (exclude : List Pattern) (seen : List String) (steps : List Step) :
    List ResolvedFile :=
  (decisions t exclude seen steps).filterMap Decision.selected?

section

variable {t : FileTree} {exclude : List Pattern} {seen : List String} {steps : List Step}
  {file : ResolvedFile}

theorem selected_nothing (pattern : String) :
    selected t exclude seen (.nothing pattern :: steps) = selected t exclude seen steps := by
  rw [selected, decisions]
  rfl

theorem selected_of_mem_seen (h : file.relPath ∈ seen) :
    selected t exclude seen (.found file :: steps) = selected t exclude seen steps := by
  rw [selected, decisions, if_pos h]
  rfl

theorem selected_of_not_mem_seen (h : file.relPath ∉ seen) :
    selected t exclude seen (.found file :: steps) =
      (judge t exclude file).selected?.toList ++
        selected t exclude (file.relPath :: seen) steps := by
  rw [selected, decisions, if_neg h, List.filterMap_cons]
  cases (judge t exclude file).selected? <;> rfl

theorem mem_judge_selected? {f : ResolvedFile} : f ∈ (judge t exclude file).selected?.toList ↔
    judge t exclude file = .selected f := by
  cases h : judge t exclude file <;> simp [Decision.selected?, eq_comm]

/-- What is selected was come upon, was not seen before and was judged so. -/
theorem judged_of_mem_selected (h : file ∈ selected t exclude seen steps) :
    .found file ∈ steps ∧ file.relPath ∉ seen ∧ judge t exclude file = .selected file := by
  induction steps generalizing seen with
  | nil => simp [selected, decisions] at h
  | cons step steps ih =>
    cases step with
    | nothing p =>
      rw [selected_nothing] at h
      have ⟨hmem, hrest⟩ := ih h
      exact ⟨List.mem_cons_of_mem _ hmem, hrest⟩
    | found f =>
      by_cases hseen : f.relPath ∈ seen
      · rw [selected_of_mem_seen hseen] at h
        have ⟨hmem, hrest⟩ := ih h
        exact ⟨List.mem_cons_of_mem _ hmem, hrest⟩
      · rw [selected_of_not_mem_seen hseen, List.mem_append, mem_judge_selected?] at h
        cases h with
        | inl h =>
          have heq := (judge_eq_selected_iff.mp h).1
          rw [heq] at h ⊢
          exact ⟨List.mem_cons_self, hseen, h⟩
        | inr h =>
          have ⟨hmem, hnot, hjudge⟩ := ih h
          exact ⟨List.mem_cons_of_mem _ hmem, fun hs => hnot (List.mem_cons_of_mem _ hs), hjudge⟩

/-- Where relative paths tell files apart, all that is judged so is selected. -/
theorem mem_selected (hsteps : .found file ∈ steps) (hseen : file.relPath ∉ seen)
    (hjudge : judge t exclude file = .selected file)
    (honly : ∀ f, .found f ∈ steps → f.relPath = file.relPath → f = file) :
    file ∈ selected t exclude seen steps := by
  induction steps generalizing seen with
  | nil => simp at hsteps
  | cons step steps ih =>
    have honly' : ∀ f, .found f ∈ steps → f.relPath = file.relPath → f = file :=
      fun f hf => honly f (List.mem_cons_of_mem _ hf)
    have hsteps' : step = .found file ∨ .found file ∈ steps :=
      (List.mem_cons.mp hsteps).imp Eq.symm id
    cases step with
    | nothing p =>
      rw [selected_nothing]
      exact ih (hsteps'.resolve_left nofun) hseen honly'
    | found f =>
      by_cases heq : f = file
      · rw [heq, selected_of_not_mem_seen hseen]
        exact List.mem_append_left _ (mem_judge_selected?.mpr hjudge)
      · have hmem := hsteps'.resolve_left fun h => heq (Step.found.inj h)
        have hrel : f.relPath ≠ file.relPath := fun h => heq (honly f List.mem_cons_self h)
        by_cases hf : f.relPath ∈ seen
        · rw [selected_of_mem_seen hf]
          exact ih hmem hseen honly'
        · rw [selected_of_not_mem_seen hf]
          refine List.mem_append_right _ (ih hmem ?_ honly')
          exact fun h => (List.mem_cons.mp h).elim (fun h => hrel h.symm) hseen

theorem nodup_selected (t : FileTree) (exclude : List Pattern) (seen : List String)
    (steps : List Step) : ((selected t exclude seen steps).map ResolvedFile.relPath).Nodup := by
  induction steps generalizing seen with
  | nil => simp [selected, decisions]
  | cons step steps ih =>
    cases step with
    | nothing p =>
      rw [selected_nothing]
      exact ih seen
    | found f =>
      by_cases hseen : f.relPath ∈ seen
      · rw [selected_of_mem_seen hseen]
        exact ih seen
      · rw [selected_of_not_mem_seen hseen, List.map_append, List.nodup_append]
        refine ⟨?_, ih _, ?_⟩
        · cases (judge t exclude f).selected? <;> simp
        · intro a ha b hb heq
          have ⟨g, hg, hga⟩ := List.mem_map.mp ha
          have ⟨f', hf', hfb⟩ := List.mem_map.mp hb
          have hgf := (judge_eq_selected_iff.mp (mem_judge_selected?.mp hg)).1
          apply (judged_of_mem_selected hf').2.1
          rw [hfb, ← heq, ← hga, hgf]
          exact List.mem_cons_self

theorem judge_selected?_eq (t : FileTree) (exclude : List Pattern) (file : ResolvedFile) :
    (judge t exclude file).selected?.toList =
      (judge t [] file).selected?.toList.filter fun f => !exclude.any (·.matches f.relPath) := by
  rw [judge, judge]
  split
  · rfl
  · have hany : (exclude.find? fun e => e.matches file.relPath).isSome =
        exclude.any fun e => e.matches file.relPath := List.isSome_find?
    cases hfind : exclude.find? (·.matches file.relPath) with
    | some p =>
      rw [hfind] at hany
      simp [Decision.selected?, ← hany]
    | none =>
      rw [hfind] at hany
      simp [Decision.selected?, ← hany]

/-- Exclusions take out the files that they match, and change nothing else. -/
theorem selected_eq_filter (t : FileTree) (exclude : List Pattern) (seen : List String)
    (steps : List Step) : selected t exclude seen steps =
      (selected t [] seen steps).filter fun f => !exclude.any (·.matches f.relPath) := by
  induction steps generalizing seen with
  | nil => rfl
  | cons step steps ih =>
    cases step with
    | nothing p => rw [selected_nothing, selected_nothing, ih]
    | found f =>
      by_cases hseen : f.relPath ∈ seen
      · rw [selected_of_mem_seen hseen, selected_of_mem_seen hseen, ih]
      · rw [selected_of_not_mem_seen hseen, selected_of_not_mem_seen hseen, List.filter_append, ih,
          judge_selected?_eq]

end

end Selection

theorem resolve_eq_ok_iff {t : FileTree} {root : Path} {patterns : List String}
    {exclude : List Glob.Pattern} {files : List ResolvedFile} :
    resolve t root patterns exclude = .ok files ↔ ∃ steps,
      Selection.survey t root patterns = (steps, none) ∧
      files = Selection.selected t exclude [] steps := by
  rw [resolve, resolveUnder]
  split
  next e he => simp [he]
  next steps he =>
    simp only [he, Prod.mk.injEq, and_true, exists_eq_left', Except.ok.injEq, eq_comm]
    rfl

theorem resolve_eq_error_iff {t : FileTree} {root : Path} {patterns : List String}
    {exclude : List Glob.Pattern} {e : Failure} :
    resolve t root patterns exclude = .error e ↔ ∃ steps,
      Selection.survey t root patterns = (steps, some e) := by
  rw [resolve, resolveUnder]
  rcases Selection.survey t root patterns with ⟨steps, failure⟩
  cases failure <;> simp

theorem resolve_eq_filter (t : FileTree) (root : Path) (patterns : List String)
    (exclude : List Glob.Pattern) : resolve t root patterns exclude =
      (resolve t root patterns []).map
        (List.filter fun f => !exclude.any (·.matches f.relPath)) := by
  rw [resolve, resolve, resolveUnder, resolveUnder]
  split
  next => rfl
  next steps _ => exact congrArg Except.ok (Selection.selected_eq_filter t exclude [] steps)

theorem nodup_relPath_of_resolve {t : FileTree} {root : Path} {patterns : List String}
    {exclude : List Glob.Pattern} {files : List ResolvedFile}
    (h : resolve t root patterns exclude = .ok files) :
    (files.map ResolvedFile.relPath).Nodup := by
  obtain ⟨steps, _, rfl⟩ := resolve_eq_ok_iff.mp h
  exact Selection.nodup_selected t exclude [] steps

/-- What a pattern comes upon under a root stands there. -/
theorem Selection.Finds.stands {t : FileTree} {root : Path} {pattern : String}
    {file : ResolvedFile} (h : Finds t root pattern file) : Glob.Stands t file.path := by
  have ⟨paths, hpaths, hmem, _⟩ := h
  obtain ⟨r, found, _, hexpand, rfl⟩ := pathsOf_eq_ok_iff.mp hpaths
  have hin : .ok file.path ∈ Glob.expand t r.onlyDirectories (.at t ⟨"/"⟩) r.components := by
    rw [hexpand]
    exact List.mem_map_of_mem (List.mem_mergeSort.mp hmem)
  have ⟨last, hwalks, hlast⟩ := Glob.walks_of_mem_expand t r.onlyDirectories _ _ hin
  rw [← hlast]
  have htext : (⟨"/"⟩ : Path).text ≠ "" := by decide
  have hroot : (⟨"/"⟩ : Path).Spells [] := show Path.parts ⟨"/"⟩ = [.root] by decide
  refine hwalks.stands htext fun loc hspells _ => ?_
  rw [hspells.unique hroot]
  rfl

/-- Every file that is selected was found by a pattern, and is neither a directory, nor a sidecar,
nor excluded. -/
theorem finds_of_mem_resolve {t : FileTree} {root : Path} {patterns : List String}
    {exclude : List Glob.Pattern} {files : List ResolvedFile}
    (h : resolve t root patterns exclude = .ok files) {file : ResolvedFile} (hf : file ∈ files) :
    (∃ p ∈ patterns, Selection.Finds t root p file) ∧ t.isDirectory file.path = false ∧
      isSidecar file.path = false ∧ exclude.any (·.matches file.relPath) = false := by
  obtain ⟨steps, hsurvey, rfl⟩ := resolve_eq_ok_iff.mp h
  have ⟨hsteps, _, hjudge⟩ := Selection.judged_of_mem_selected hf
  exact ⟨(Selection.mem_survey hsurvey).mp hsteps, (Selection.judge_eq_selected_iff.mp hjudge).2⟩

/-- Failures that a single file brings about when it is taken. -/
def Failure.isOfFile : Failure → Bool
  | .unreadable _ _ | .unwritable _ _ => true
  | _ => false

namespace Selection

theorem isOfFile_of_pathsOf {t : FileTree} {root : Path} {pattern : String} {e : Failure}
    (h : pathsOf t root pattern = .error e) : e.isOfFile = false := by
  rw [pathsOf] at h
  cases hr : Glob.Route.parse (Glob.underRoot root pattern) with
  | error problem =>
    rw [hr] at h
    rw [← Except.error.inj h]
    rfl
  | ok r =>
    cases hp : r.paths t with
    | error problem =>
      simp only [hr, hp, Except.mapError, bind, Except.bind] at h
      rw [← Except.error.inj h]
      rfl
    | ok paths =>
      simp only [hr, hp, Except.mapError, bind, Except.bind] at h
      contradiction

theorem isOfFile_of_relativePath {root p : Path} {e : Failure}
    (h : relativePath root p = .error e) : e.isOfFile = false := by
  rw [eq_outsideRoot_of_relativePath h]
  rfl

theorem isOfFile_of_filesOf {root : Path} {paths : List Path} {files : List ResolvedFile}
    {e : Failure} (h : filesOf root paths = (files, some e)) : e.isOfFile = false := by
  induction paths generalizing files with
  | nil => simp [filesOf] at h
  | cons p paths ih =>
    rw [filesOf, relativePath_inBytes] at h
    split at h
    next hp =>
      obtain rfl := Option.some.inj (Prod.mk.inj h).2
      exact isOfFile_of_relativePath hp
    next => exact ih (Prod.ext rfl (Prod.mk.inj h).2)

theorem isOfFile_of_stepsOf {t : FileTree} {root : Path} {pattern : String} {steps : List Step}
    {e : Failure} (h : stepsOf t root pattern = (steps, some e)) : e.isOfFile = false := by
  unfold stepsOf at h
  split at h
  next hp =>
    obtain rfl := Option.some.inj (Prod.mk.inj h).2
    exact isOfFile_of_pathsOf hp
  next => simp at h
  next => exact isOfFile_of_filesOf (Prod.ext rfl (Prod.mk.inj h).2)

theorem isOfFile_of_survey {t : FileTree} {root : Path} {patterns : List String}
    {steps : List Step} {e : Failure} (h : survey t root patterns = (steps, some e)) :
    e.isOfFile = false := by
  induction patterns generalizing steps with
  | nil => simp [survey] at h
  | cons p patterns ih =>
    rw [survey] at h
    split at h
    next hp =>
      obtain rfl := Option.some.inj (Prod.mk.inj h).2
      exact isOfFile_of_stepsOf hp
    next => exact ih (Prod.ext rfl (Prod.mk.inj h).2)

end Selection

theorem isOfFile_of_resolve {t : FileTree} {root : Path} {patterns : List String}
    {exclude : List Glob.Pattern} {e : Failure}
    (h : resolve t root patterns exclude = .error e) : e.isOfFile = false := by
  have ⟨_, hsurvey⟩ := resolve_eq_error_iff.mp h
  exact Selection.isOfFile_of_survey hsurvey

theorem isOfFile_of_canonicalRoot {t : FileTree} {p : Path} {e : Failure}
    (h : canonicalRoot t p = .error e) : e.isOfFile = false := by
  unfold canonicalRoot at h
  split at h
  · split at h
    · contradiction
    · exact Except.error.inj h ▸ rfl
  · exact Except.error.inj h ▸ rfl

theorem isOfFile_of_compileExcludes {ps : List String} {e : Failure}
    (h : compileExcludes ps = .error e) : e.isOfFile = false := by
  unfold compileExcludes at h
  induction ps with
  | nil => contradiction
  | cons p ps ih =>
    rw [List.mapM_cons, compilePattern] at h
    cases hp : Glob.Pattern.parse p with
    | error problem =>
      rw [hp] at h
      exact Except.error.inj h ▸ rfl
    | ok c =>
      rw [hp] at h
      cases hps : ps.mapM compilePattern with
      | error other =>
        rw [hps] at h
        obtain rfl := Except.error.inj h
        exact ih hps
      | ok cs =>
        rw [hps] at h
        contradiction

end Sidecar
