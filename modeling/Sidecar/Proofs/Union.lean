import Sidecar.Proofs.ByteOrder
import Sidecar.Proofs.Reselection

/-! Two lists of patterns at once. What was come upon before counts as seen whether it was selected
or not, and yet the selection is the ordered union of the two as long as it has no directories: a
sidecar stays one in every spelling of its path, but a directory only in those that can still be
looked up. -/

namespace Sidecar

namespace Selection

open Glob

section

variable {t : FileTree} {root : Path} {above : Location} {exclude : List Pattern}
  {seen seen' : List String} {steps before after : List Step} {file : ResolvedFile}

/-- The relative paths that a survey came upon. -/
def relPathsOf (steps : List Step) : List String :=
  steps.filterMap fun
    | .nothing _ => none
    | .found file => some file.relPath

theorem mem_relPathsOf {relPath : String} :
    relPath ∈ relPathsOf steps ↔ ∃ f, .found f ∈ steps ∧ f.relPath = relPath := by
  rw [relPathsOf, List.mem_filterMap]
  constructor
  · rintro ⟨step, hstep, hrel⟩
    cases step with
    | nothing => contradiction
    | found f => exact ⟨f, hstep, Option.some.inj hrel⟩
  · rintro ⟨f, hf, hrel⟩
    exact ⟨_, hf, congrArg some hrel⟩

theorem selected_congr_seen (h : ∀ r, r ∈ seen ↔ r ∈ seen') :
    selected t exclude seen steps = selected t exclude seen' steps := by
  induction steps generalizing seen seen' with
  | nil => rfl
  | cons step steps ih =>
    cases step with
    | nothing p => rw [selected_nothing, selected_nothing, ih h]
    | found f =>
      by_cases hmem : f.relPath ∈ seen
      · rw [selected_of_mem_seen hmem, selected_of_mem_seen ((h _).mp hmem), ih h]
      · rw [selected_of_not_mem_seen hmem, selected_of_not_mem_seen (mt (h _).mpr hmem)]
        congr 1
        refine ih fun r => ?_
        rw [List.mem_cons, List.mem_cons, h r]

/-- More that was seen takes away the files of those relative paths and changes nothing else. -/
theorem selected_seen_append (passed : List String) :
    selected t exclude (passed ++ seen) steps =
      (selected t exclude seen steps).filter fun f => f.relPath ∉ passed := by
  induction steps generalizing seen with
  | nil => rfl
  | cons step steps ih =>
    cases step with
    | nothing p => rw [selected_nothing, selected_nothing, ih]
    | found f =>
      by_cases hseen : f.relPath ∈ seen
      · rw [selected_of_mem_seen hseen, selected_of_mem_seen (List.mem_append_right _ hseen), ih]
      · rw [selected_of_not_mem_seen hseen, List.filter_append, ← ih]
        have hjudge : ∀ g ∈ (judge t exclude f).selected?.toList, g = f := fun g hg =>
          (judge_eq_selected_iff.mp (mem_judge_selected?.mp hg)).1
        by_cases hpassed : f.relPath ∈ passed
        · have hnone : ((judge t exclude f).selected?.toList.filter
              fun g => g.relPath ∉ passed) = [] := by
            rw [List.filter_eq_nil_iff]
            intro g hg
            simpa [hjudge g hg] using hpassed
          rw [selected_of_mem_seen (List.mem_append_left _ hpassed), hnone, List.nil_append]
          refine selected_congr_seen fun r => ?_
          rw [List.mem_append, List.mem_append, List.mem_cons, or_left_comm]
          refine (or_iff_right_of_imp ?_).symm
          rintro rfl
          exact .inl hpassed
        · have hall : ((judge t exclude f).selected?.toList.filter
              fun g => g.relPath ∉ passed) = (judge t exclude f).selected?.toList := by
            rw [List.filter_eq_self]
            intro g hg
            simpa [hjudge g hg] using hpassed
          rw [selected_of_not_mem_seen (by simp [hpassed, hseen]), hall]
          congr 1
          refine selected_congr_seen fun r => ?_
          rw [List.mem_cons, List.mem_append, List.mem_append, List.mem_cons, or_left_comm]

theorem selected_append : selected t exclude seen (before ++ after) =
    selected t exclude seen before ++ selected t exclude (relPathsOf before ++ seen) after := by
  induction before generalizing seen with
  | nil => rfl
  | cons step before ih =>
    rw [List.cons_append]
    cases step with
    | nothing p =>
      rw [selected_nothing, selected_nothing, ih]
      rfl
    | found f =>
      have hcons : relPathsOf (.found f :: before) = f.relPath :: relPathsOf before := rfl
      by_cases hseen : f.relPath ∈ seen
      · rw [selected_of_mem_seen hseen, selected_of_mem_seen hseen, ih, hcons]
        congr 1
        refine selected_congr_seen fun r => ?_
        rw [List.cons_append, List.mem_cons]
        refine (or_iff_right_of_imp ?_).symm
        rintro rfl
        exact List.mem_append_right _ hseen
      · rw [selected_of_not_mem_seen hseen, selected_of_not_mem_seen hseen, ih, List.append_assoc,
          hcons]
        congr 2
        refine selected_congr_seen fun r => ?_
        rw [List.cons_append, List.mem_cons, List.mem_append, List.mem_append, List.mem_cons,
          or_left_comm]

/-- What is selected is left of what was come upon, in the same order. -/
theorem selected_sublist (t : FileTree) (exclude : List Pattern) (seen : List String)
    (files : List ResolvedFile) :
    (selected t exclude seen (files.map .found)).Sublist files := by
  induction files generalizing seen with
  | nil => exact List.Sublist.slnil
  | cons f files ih =>
    rw [List.map_cons]
    by_cases hseen : f.relPath ∈ seen
    · rw [selected_of_mem_seen hseen]
      exact (ih seen).cons f
    · rw [selected_of_not_mem_seen hseen]
      cases hjudge : (judge t exclude f).selected? with
      | none => exact (ih _).cons f
      | some g =>
        have hmem : g ∈ (judge t exclude f).selected?.toList := by simp [hjudge]
        rw [(judge_eq_selected_iff.mp (mem_judge_selected?.mp hmem)).1]
        exact (ih _).cons_cons f

theorem pairwise_le_of_pathsOf {pattern : String} {paths : List Path}
    (h : pathsOf t root pattern = .ok paths) : paths.Pairwise fun p q => p.le q = true := by
  obtain ⟨_, found, _, _, rfl⟩ := pathsOf_eq_ok_iff.mp h
  exact List.pairwise_mergeSort Path.le_trans Path.le_total found

theorem survey_singleton (t : FileTree) (root : Path) (pattern : String) :
    survey t root [pattern] = stepsOf t root pattern := by
  rw [survey]
  rcases stepsOf t root pattern with ⟨steps, _ | e⟩
  · simp only [survey, List.append_nil]
  · rfl

/-- The files that one pattern selects come in the order of their paths. -/
theorem pairwise_le_of_resolve {pattern : String} {files : List ResolvedFile}
    (h : resolve t root [pattern] exclude = .ok files) :
    files.Pairwise fun f g => f.path.le g.path = true := by
  obtain ⟨steps, hsurvey, rfl⟩ := resolve_eq_ok_iff.mp h
  rw [survey_singleton] at hsurvey
  unfold stepsOf at hsurvey
  split at hsurvey
  next => simp at hsurvey
  next =>
    rw [← (Prod.mk.inj hsurvey).1]
    exact List.Pairwise.nil
  next paths _ hpaths =>
    obtain ⟨rfl, hfailure⟩ := Prod.mk.inj hsurvey
    have ⟨hfiles, _⟩ := filesOf_eq_none_iff.mp (Prod.ext rfl hfailure)
    refine List.Pairwise.sublist (selected_sublist t exclude [] _) ?_
    rw [← List.pairwise_map (f := ResolvedFile.path) (R := fun p q => p.le q = true), hfiles]
    exact pairwise_le_of_pathsOf hpaths

/-- A file whose relative path was come upon before is one that was selected before, be it in
another spelling: where it is no directory, no other spelling is a directory's or a sidecar's. -/
theorem mem_relPathsOf_iff (hroot : root.Spells above)
    (hrel : ∀ g, .found g ∈ steps → relativePath root g.path = .ok g.relPath)
    (hfile : relativePath root file.path = .ok file.relPath)
    (hjudge : judge t exclude file = .selected file)
    (hfine : ¬t.NamesDirectory file.path) :
    file.relPath ∈ relPathsOf steps ↔
      file.relPath ∈ (selected t exclude [] steps).map ResolvedFile.relPath := by
  rw [mem_relPathsOf, List.mem_map]
  constructor
  · rintro ⟨g, hg, heq⟩
    rw [← heq]
    have ⟨_, _, hside, hkept⟩ := judge_eq_selected_iff.mp hjudge
    refine exists_mem_selected hg (by simp) fun f hf hname => judge_eq_selected_iff.mpr ?_
    have hsame : f.path.Same file.path :=
      same_of_relativePath hroot.text_ne ((hname.trans heq) ▸ hrel f hf) hfile
    refine ⟨rfl, ?_, (isSidecar_eq_of_same hsame).trans hside, ?_⟩
    · rw [← Bool.not_eq_true]
      intro hdirectory
      have ⟨names, hspells, _⟩ := (relativePath_eq_ok_iff hroot _ _).mp hfile
      have hfound : f.path.Spells (names.reverse ++ above) := hsame.trans hspells
      exact hfine (FileTree.namesDirectory_of_spells hfound hspells hdirectory)
    · rwa [hname, heq]
  · rintro ⟨f, hf, heq⟩
    exact ⟨f, (judged_of_mem_selected hf).1, heq⟩

end

end Selection

section

variable {t : FileTree} {root : Path} {above : Location} {ps qs : List String}
  {exclude : List Glob.Pattern} {files more : List ResolvedFile} {e : Failure}

theorem resolve_append_of_error (h : resolve t root ps exclude = .error e) :
    resolve t root (ps ++ qs) exclude = .error e := by
  obtain ⟨steps, hsurvey⟩ := resolve_eq_error_iff.mp h
  refine resolve_eq_error_iff.mpr ⟨steps, ?_⟩
  rw [Selection.survey_append, hsurvey]

theorem resolve_append_of_ok_of_error (hfiles : resolve t root ps exclude = .ok files)
    (h : resolve t root qs exclude = .error e) :
    resolve t root (ps ++ qs) exclude = .error e := by
  obtain ⟨before, hbefore, _⟩ := resolve_eq_ok_iff.mp hfiles
  obtain ⟨after, hafter⟩ := resolve_eq_error_iff.mp h
  refine resolve_eq_error_iff.mpr ⟨before ++ after, ?_⟩
  rw [Selection.survey_append, hbefore, hafter]

/-- What both lists select is selected once, by the spelling of the first. -/
theorem resolve_append_eq (hroot : root.Spells above)
    (hfiles : resolve t root ps exclude = .ok files)
    (hmore : resolve t root qs exclude = .ok more)
    (hfine : ∀ f ∈ more, ¬t.NamesDirectory f.path) :
    resolve t root (ps ++ qs) exclude =
      .ok (files ++ more.filter fun f => f.relPath ∉ files.map ResolvedFile.relPath) := by
  obtain ⟨before, hbefore, rfl⟩ := resolve_eq_ok_iff.mp hfiles
  obtain ⟨after, hafter, rfl⟩ := resolve_eq_ok_iff.mp hmore
  refine resolve_eq_ok_iff.mpr ⟨before ++ after, ?_, Eq.symm ?_⟩
  · rw [Selection.survey_append, hbefore, hafter]
  · rw [Selection.selected_append, Selection.selected_seen_append]
    congr 1
    apply List.filter_congr
    intro f hf
    have ⟨hfound, _, hjudge⟩ := Selection.judged_of_mem_selected hf
    exact decide_eq_decide.mpr (not_congr (Selection.mem_relPathsOf_iff hroot
      (fun _ => Selection.relativePath_of_mem_survey hbefore)
      (Selection.relativePath_of_mem_survey hafter hfound) hjudge (hfine f hf)))

/-- One pattern selects files in the order of the bytes of their relative paths. -/
theorem pairwise_componentsLt_of_resolve (hroot : root.Spells above) {pattern : String}
    (h : resolve t root [pattern] exclude = .ok files) :
    (files.map ResolvedFile.relPath).Pairwise Text.ComponentsLt := by
  have hle := Selection.pairwise_le_of_resolve h
  have hne := nodup_relPath_of_resolve h
  rw [List.Nodup, List.pairwise_map] at hne
  rw [List.pairwise_map]
  have hrel : ∀ f ∈ files, relativePath root f.path = .ok f.relPath := by
    intro f hf
    have ⟨⟨_, _, _, _, _, hrel⟩, _⟩ := finds_of_mem_resolve h hf
    exact hrel
  refine List.Pairwise.imp_of_mem (fun hf hg hfg => ?_) (hle.and hne)
  exact componentsLt_of_le hroot (hrel _ hf) (hrel _ hg) hfg.1 hfg.2

/-- Selection is an ordered union: the first list fails before the second, and the second adds what
the first has not, as long as it selects no directory. No relative path is selected twice, and one
pattern selects them in the order of their bytes. -/
theorem resolve_union {q : Path} (h : canonicalRoot t q = .ok root)
    (exclude : List Glob.Pattern) :
    (∀ ps qs e, resolve t root ps exclude = .error e →
      resolve t root (ps ++ qs) exclude = .error e) ∧
    (∀ ps qs files e, resolve t root ps exclude = .ok files → resolve t root qs exclude = .error e →
      resolve t root (ps ++ qs) exclude = .error e) ∧
    (∀ ps qs files more, resolve t root ps exclude = .ok files →
      resolve t root qs exclude = .ok more →
      (∀ f ∈ more, ¬t.NamesDirectory f.path) →
      resolve t root (ps ++ qs) exclude =
        .ok (files ++ more.filter fun f => f.relPath ∉ files.map ResolvedFile.relPath)) ∧
    (∀ ps files, resolve t root ps exclude = .ok files →
      (files.map ResolvedFile.relPath).Nodup) ∧
    ∀ pattern files, resolve t root [pattern] exclude = .ok files →
      (files.map ResolvedFile.relPath).Pairwise Text.ComponentsLt := by
  have ⟨above, hisRoot⟩ := isRoot_of_canonicalRoot h
  exact ⟨fun _ _ _ => resolve_append_of_error, fun _ _ _ _ => resolve_append_of_ok_of_error,
    fun _ _ _ _ => resolve_append_eq hisRoot.spells, fun _ _ => nodup_relPath_of_resolve,
    fun _ _ => pairwise_componentsLt_of_resolve hisRoot.spells⟩

theorem resolve_union_oneFile :
    canonicalRoot FileTree.oneFile ⟨"/"⟩ = .ok ⟨"/"⟩ ∧
      resolve FileTree.oneFile ⟨"/"⟩ ["a"] [] = .ok [⟨⟨"/a"⟩, "a"⟩] ∧
      resolve FileTree.oneFile ⟨"/"⟩ ["./a"] [] = .ok [⟨⟨"/a"⟩, "a"⟩] ∧
      resolve FileTree.oneFile ⟨"/"⟩ (["a"] ++ ["./a"]) [] = .ok [⟨⟨"/a"⟩, "a"⟩] := by
  have hroot := isRoot_oneFile.canonicalRoot_eq
  have hfiles : resolve FileTree.oneFile ⟨"/"⟩ ["a"] [] = .ok [⟨⟨"/a"⟩, "a"⟩] := by cbv
  have hmore : resolve FileTree.oneFile ⟨"/"⟩ ["./a"] [] = .ok [⟨⟨"/a"⟩, "a"⟩] := by cbv
  have hfine : ∀ f ∈ [(⟨⟨"/a"⟩, "a"⟩ : ResolvedFile)], ¬FileTree.oneFile.NamesDirectory f.path := by
    have hwalk : FileTree.oneFile.walkPath .target ⟨"/a"⟩ = .ok ["a"] := by cbv
    intro f hf
    rw [List.mem_singleton.mp hf]
    rintro ⟨loc, hloc, hdir⟩
    rw [← Except.ok.inj (hwalk.symm.trans hloc)] at hdir
    exact absurd hdir (by decide)
  refine ⟨hroot, hfiles, hmore, ?_⟩
  rw [(resolve_union hroot []).2.2.1 ["a"] ["./a"] _ _ hfiles hmore hfine]
  simp

end

/-! A directory in a spelling that is too long to be looked up is taken for a file, and it is
selected unless the directory was come upon before. -/

section

open FileTree Glob

theorem empty_accepts_d : FileTree.empty.Accepts ["d"] := by
  decide

/-- A tree of one directory. -/
def oneDirectory : FileTree :=
  put .empty ["d"] .directory empty_accepts_d

/-- The directory and dots behind it. -/
def dotted (dots : Nat) : Path :=
  ⟨pathOf (List.replicate dots "." ++ ["d"])⟩

/-- The pattern that spells this. -/
def dottedPattern (dots : Nat) : String :=
  "/".intercalate ("d" :: List.replicate dots ".")

theorem isRoot_oneDirectory : IsRoot oneDirectory ⟨"/"⟩ [] :=
  ⟨rfl, rfl, by decide⟩

variable {dots : Nat}

theorem mem_dotted {name : String} (h : name ∈ List.replicate dots "." ++ ["d"]) :
    name = "." ∨ name = "d" := by
  cases List.mem_append.mp h with
  | inl h => exact .inl (List.eq_of_mem_replicate h)
  | inr h => exact .inr (List.mem_singleton.mp h)

theorem child_dotted (dots : Nat) : (dotted dots).child "." = dotted (dots + 1) := by
  rw [dotted, child_pathOf]
  · rfl
  · intro name hname
    rcases mem_dotted hname with rfl | rfl <;> decide

theorem spells_dotted (dots : Nat) : (dotted dots).Spells ["d"] := by
  induction dots with
  | zero => exact show (dotted 0).parts = [.root, .name "d"] by decide
  | succ dots ih =>
    rw [← child_dotted]
    exact spells_child ih (by decide) (by decide)

theorem utf8ByteSize_dotted (dots : Nat) : (dotted dots).text.utf8ByteSize = 2 * (dots + 1) := by
  induction dots with
  | zero => decide
  | succ dots ih =>
    have hdot : ".".utf8ByteSize = 1 := by decide
    have hslash : "/".utf8ByteSize = 1 := by decide
    have hnext : (dotted (dots + 1)).text = (dotted dots).text ++ "/" ++ "." :=
      pathOf_cons "." (by simp)
    rw [hnext, String.utf8ByteSize_append, String.utf8ByteSize_append, ih, hdot, hslash]
    omega

theorem isDirectory_dotted (dots : Nat) :
    oneDirectory.isDirectory (dotted dots) = decide (2 * (dots + 1) < maxPathBytes) := by
  rw [← utf8ByteSize_dotted]
  by_cases hlen : (dotted dots).text.utf8ByteSize < maxPathBytes
  · rw [isDirectory_of_get? (spells_dotted dots) rfl hlen, decide_eq_true hlen]
  · rw [decide_eq_false hlen, ← Bool.not_eq_true]
    intro hdir
    have ⟨_, hlocate, _⟩ := isDirectory_eq_true hdir
    exact hlen (utf8ByteSize_lt_of_locate hlocate)

theorem expand_dotted {more : Nat} (h : 2 * (dots + more) < maxPathBytes) :
    expand oneDirectory false (.at oneDirectory (dotted dots))
      (List.replicate more ⟨".", [.literal '.']⟩) = [.ok (dotted (dots + more))] := by
  induction more generalizing dots with
  | zero =>
    rw [List.replicate_zero, expand_nil]
    rfl
  | succ more ih =>
    have hdir : oneDirectory.isDirectory (dotted dots) = true := by
      rw [isDirectory_dotted, decide_eq_true_iff]
      omega
    have hleads : (Place.at oneDirectory (dotted dots)).leadsTo oneDirectory "." = true := by
      rw [Place.leadsTo, if_pos (Or.inl rfl)]
      exact hdir
    have hliteral : Pattern.literal? ⟨".", [.literal '.']⟩ = some "." := by decide
    rw [List.replicate_succ, expand_literal hliteral, if_pos hleads, Place.path_at, child_dotted,
      ih (by omega)]
    congr 3
    omega

theorem relative_dottedPattern (dots : Nat) :
    relative (dottedPattern dots) = dottedPattern dots := by
  have hhead : ∀ cs, (dottedPattern dots).toList ≠ '.' :: cs := by
    intro cs
    rw [dottedPattern, Text.toList_intercalate_slash]
    cases dots <;> simp [Text.joined, List.replicate_succ]
  rw [relative]
  unfold underRoot.withoutHere
  split
  next cs hcs => exact absurd hcs (hhead _)
  next => exact String.ofList_toList

theorem pathsOf_dotted (h : 2 * dots < maxPathBytes) :
    Selection.pathsOf oneDirectory (⟨"/"⟩ : Path) (dottedPattern dots) = .ok [dotted dots] := by
  have hd : Pattern.IsComponent ⟨"d", [.literal 'd']⟩ := ⟨parse_d, by decide⟩
  have hpieces : Text.piecesOf '/' (dottedPattern dots) = "d" :: List.replicate dots "." := by
    refine Text.piecesOf_intercalate (fun name hname => ?_) (by simp)
    cases List.mem_cons.mp hname with
    | inl h => rw [h]; decide
    | inr h => rw [List.eq_of_mem_replicate h]; decide
  have hlast : ("d" :: List.replicate dots ".").getLast? ≠ some "" := by
    intro hlast
    have := List.mem_of_getLast? hlast
    simp at this
  have hliteral : Pattern.literal? ⟨"d", [.literal 'd']⟩ = some "d" := by decide
  have hleads : (Place.at oneDirectory ⟨"/"⟩).leadsTo oneDirectory "d" = true := by cbv
  refine (Selection.pathsOf_root_eq_ok_iff isRoot_oneDirectory).mpr
    ⟨⟨"d", [.literal 'd']⟩ :: List.replicate dots ⟨".", [.literal '.']⟩, [dotted dots], ?_, ?_, ?_,
      ?_⟩
  · rw [relative_dottedPattern, hpieces, withoutFinalSlash, if_neg hlast, List.map_cons,
      List.map_replicate]
  · intro c hc
    cases List.mem_cons.mp hc with
    | inl h => exact h ▸ hd
    | inr h => exact List.eq_of_mem_replicate h ▸ isComponent_here
  · have hcollapse : collapse (⟨"d", [.literal 'd']⟩ :: List.replicate dots ⟨".", [.literal '.']⟩) =
        ⟨"d", [.literal 'd']⟩ :: List.replicate dots ⟨".", [.literal '.']⟩ := by
      have hplain : ∀ c ∈ (⟨"d", [.literal 'd']⟩ :: List.replicate dots ⟨".", [.literal '.']⟩ :
          List Pattern), c.isRecursive = false := by
        intro c hc
        cases List.mem_cons.mp hc with
        | inl h => exact h ▸ rfl
        | inr h => exact List.eq_of_mem_replicate h ▸ rfl
      simpa [collapse] using collapse_append hplain []
    have honly : (("d" :: List.replicate dots ".").getLast? == some "") = false := by
      simpa using hlast
    have hfirst : (⟨"/"⟩ : Path).child "d" = dotted 0 := by decide
    rw [hcollapse, relative_dottedPattern, hpieces, expand_literal hliteral, if_pos hleads, honly,
      Place.path_at, hfirst, expand_dotted (by simpa using h), Nat.zero_add]
    rfl
  · simp

theorem resolve_dotted {counts : List Nat} (h : ∀ dots ∈ counts, 2 * dots < maxPathBytes) :
    resolve oneDirectory ⟨"/"⟩ (counts.map dottedPattern) [] =
      .ok (Selection.selected oneDirectory [] []
        (counts.map fun dots => .found ⟨dotted dots, "d"⟩)) := by
  refine resolve_eq_ok_iff.mpr ⟨_, ?_, rfl⟩
  induction counts with
  | nil => rfl
  | cons dots counts ih =>
    have hrel : relativePath ⟨"/"⟩ (dotted dots) = .ok "d" :=
      (relativePath_eq_ok_iff isRoot_oneDirectory.spells _ _).mpr ⟨["d"], spells_dotted dots, rfl⟩
    have hsteps : Selection.stepsOf oneDirectory (⟨"/"⟩ : Path) (dottedPattern dots) =
        ([.found ⟨dotted dots, "d"⟩], none) := by
      rw [Selection.stepsOf, pathsOf_dotted (h dots List.mem_cons_self)]
      simp [Selection.filesOf, relativePath_inBytes, hrel]
    rw [List.map_cons, Selection.survey, hsteps, ih fun n hn => h n (List.mem_cons_of_mem _ hn)]
    rfl

/-- A directory that was come upon first keeps its longest spelling out, which would be selected
alone. -/
theorem not_resolve_union_oneDirectory : ∃ ps qs files more,
    canonicalRoot oneDirectory ⟨"/"⟩ = .ok ⟨"/"⟩ ∧
    resolve oneDirectory ⟨"/"⟩ ps [] = .ok files ∧ resolve oneDirectory ⟨"/"⟩ qs [] = .ok more ∧
    resolve oneDirectory ⟨"/"⟩ (ps ++ qs) [] ≠
      .ok (files ++ more.filter fun f => f.relPath ∉ files.map ResolvedFile.relPath) := by
  have hjudge (dots : Nat) : Selection.judge oneDirectory [] ⟨dotted dots, "d"⟩ =
      if 2 * (dots + 1) < maxPathBytes then .passedOver ⟨dotted dots, "d"⟩
      else .selected ⟨dotted dots, "d"⟩ := by
    have hside : isSidecar (dotted dots) = false := by
      rw [← Bool.not_eq_true, isSidecar_iff (spells_dotted dots)]
      decide
    simp [Selection.judge, isDirectory_dotted, hside]
  have hd : dottedPattern 0 = "d" := by decide
  have hps : resolve oneDirectory ⟨"/"⟩ ["d"] [] = .ok [] := by
    have := @resolve_dotted [0] (by decide)
    rw [List.map_singleton, hd] at this
    rw [this, Selection.selected, List.map_singleton, Selection.decisions, hjudge]
    rfl
  have hqs : resolve oneDirectory ⟨"/"⟩ [dottedPattern 2047] [] = .ok [⟨dotted 2047, "d"⟩] := by
    have := @resolve_dotted [2047] (by decide)
    rw [List.map_singleton] at this
    rw [this, Selection.selected, List.map_singleton, Selection.decisions, hjudge]
    rfl
  have hboth : resolve oneDirectory ⟨"/"⟩ (["d"] ++ [dottedPattern 2047]) [] = .ok [] := by
    have := @resolve_dotted [0, 2047] (by decide)
    rw [List.map_cons, List.map_singleton, hd] at this
    rw [List.singleton_append, this, List.map_cons, List.map_singleton,
      Selection.selected_of_not_mem_seen (by simp), Selection.selected_of_mem_seen (by simp),
      hjudge]
    rfl
  refine ⟨["d"], [dottedPattern 2047], _, _, isRoot_oneDirectory.canonicalRoot_eq, hps, hqs, ?_⟩
  rw [hboth]
  simp

end

end Sidecar
