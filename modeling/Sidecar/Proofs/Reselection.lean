import Sidecar.Proofs.Persistence

/-! Selection once more. Sidecars are passed over wherever they are come upon, so patterns that do
not go up select the same files when sidecars are there, in the same order; and two lists of
patterns at once select what the two select. -/

namespace Sidecar

/-! The order of paths. -/

namespace Path

theorem Part.le_total (a b : Part) : a.le b = true ∨ b.le a = true := by
  cases a with
  | name a =>
    cases b with
    | name b => simpa [Part.le] using String.le_total a b
    | root | here | parent => exact .inr rfl
  | root | here | parent => cases b <;> simp [Part.le]

theorem Part.le_trans {a b c : Part} (hab : a.le b = true) (hbc : b.le c = true) :
    a.le c = true := by
  cases a with
  | name a =>
    cases b with
    | name b =>
      cases c with
      | name c =>
        simp only [Part.le, decide_eq_true_eq] at hab hbc ⊢
        exact String.le_trans hab hbc
      | root | here | parent => contradiction
    | root | here | parent => contradiction
  | root | here | parent => cases b <;> cases c <;> simp_all [Part.le]

theorem Part.le_antisymm {a b : Part} (hab : a.le b = true) (hba : b.le a = true) : a = b := by
  cases a with
  | name a =>
    cases b with
    | name b =>
      simp only [Part.le, decide_eq_true_eq] at hab hba
      rw [String.le_antisymm hab hba]
    | root | here | parent => contradiction
  | root | here | parent => cases b <;> simp_all [Part.le]

theorem partsLe_total (as bs : List Part) : partsLe as bs = true ∨ partsLe bs as = true := by
  induction as generalizing bs with
  | nil => exact .inl (by simp [partsLe])
  | cons a as ih =>
    cases bs with
    | nil => exact .inr (by simp [partsLe])
    | cons b bs =>
      by_cases h : a = b
      · simpa [partsLe, h] using ih bs
      · simpa [partsLe, h, Ne.symm h] using Part.le_total a b

theorem partsLe_trans {as bs cs : List Part} (hab : partsLe as bs = true)
    (hbc : partsLe bs cs = true) : partsLe as cs = true := by
  induction as generalizing bs cs with
  | nil => simp [partsLe]
  | cons a as ih =>
    cases bs with
    | nil => simp [partsLe] at hab
    | cons b bs =>
      cases cs with
      | nil => simp [partsLe] at hbc
      | cons c cs =>
        rw [partsLe] at hab hbc ⊢
        by_cases hb : a = b
        · subst hb
          rw [if_pos rfl] at hab
          split at hbc
          next hc => rw [if_pos hc]; exact ih hab hbc
          next hc => rw [if_neg hc]; exact hbc
        · rw [if_neg hb] at hab
          by_cases hc : b = c
          · rw [← hc, if_neg hb]
            exact hab
          · rw [if_neg hc] at hbc
            rw [if_neg]
            · exact Part.le_trans hab hbc
            · rintro rfl
              exact hb (Part.le_antisymm hab hbc)

theorem le_trans (p q r : Path) (hpq : p.le q = true) (hqr : q.le r = true) : p.le r = true :=
  partsLe_trans hpq hqr

theorem le_total (p q : Path) : (p.le q || q.le p) = true := by
  rw [Bool.or_eq_true]
  exact partsLe_total p.parts q.parts

end Path

theorem takeWhile_append_eq {α : Type} {q : α → Bool} {xs ys : List α} (hxs : ∀ x ∈ xs, q x = true)
    (hys : ∀ y ∈ ys, q y = false) : (xs ++ ys).takeWhile q = xs := by
  rw [List.takeWhile_append_of_pos hxs]
  cases ys with
  | nil => rw [List.takeWhile_nil, List.append_nil]
  | cons y ys =>
    rw [List.takeWhile_cons_of_neg (by simp [hys y List.mem_cons_self]), List.append_nil]

/-- Sorting keeps what is left out left out: the rest is sorted as it would be alone. -/
theorem filter_mergeSort {α : Type} {le : α → α → Bool}
    (trans : ∀ a b c, le a b = true → le b c = true → le a c = true)
    (total : ∀ a b, (le a b || le b a) = true) (p : α → Bool) (xs : List α) :
    (xs.mergeSort le).filter p = (xs.filter p).mergeSort le := by
  induction xs with
  | nil => simp
  | cons a xs ih =>
    have ⟨before, after, hsort, hrest, hbefore⟩ := List.mergeSort_cons trans total a xs
    have hafter : ∀ b ∈ after, le a b = true := by
      have hsorted := List.pairwise_mergeSort trans total (a :: xs)
      rw [hsort, List.pairwise_append, List.pairwise_cons] at hsorted
      exact hsorted.2.1.1
    rw [hsort, List.filter_append]
    rw [hrest, List.filter_append] at ih
    cases hp : p a with
    | false =>
      rw [List.filter_cons_of_neg (by simp [hp]), List.filter_cons_of_neg (by simp [hp]), ih]
    | true =>
      rw [List.filter_cons_of_pos hp, List.filter_cons_of_pos hp]
      have ⟨first, last, hsort', hrest', hfirst⟩ := List.mergeSort_cons trans total a (xs.filter p)
      have hlast : ∀ b ∈ last, le a b = true := by
        have hsorted := List.pairwise_mergeSort trans total (a :: xs.filter p)
        rw [hsort', List.pairwise_append, List.pairwise_cons] at hsorted
        exact hsorted.2.1.1
      -- Both cut the same list where the elements stop being below `a`.
      have hsame : before.filter p ++ after.filter p = first ++ last := ih.trans hrest'
      have hcut := congrArg (List.takeWhile fun b => !le a b) hsame
      rw [takeWhile_append_eq (fun b hb => hbefore b (List.mem_of_mem_filter hb))
          (fun b hb => by simp [hafter b (List.mem_of_mem_filter hb)]),
        takeWhile_append_eq hfirst (fun b hb => by simp [hlast b hb])] at hcut
      rw [hcut] at hsame
      rw [hsort', hcut, List.append_cancel_left hsame]

theorem isSidecar_eq_of_same {p q : Path} (h : p.Same q) : isSidecar p = isSidecar q := by
  rw [isSidecar, isSidecar, Path.fileName?, Path.fileName?, show p.parts = q.parts from h]

namespace Selection

open Glob

/-- The paths that are left when sidecars are taken out. -/
def withoutSidecars (paths : List Path) : List Path :=
  paths.filter fun p => !isSidecar p

theorem mapM_filter_isContent (xs : List (Except Unlistable Path)) :
    (xs.filter isContent).mapM id = (xs.mapM id).map withoutSidecars := by
  induction xs with
  | nil => rfl
  | cons x xs ih =>
    rw [List.mapM_cons]
    cases x with
    | error e => rfl
    | ok p =>
      cases hp : isSidecar p with
      | true =>
        rw [List.filter_cons_of_neg (by simp [isContent, hp]), ih]
        cases hxs : xs.mapM id with
        | error e => rfl
        | ok ps => exact congrArg Except.ok (List.filter_cons_of_neg (by simp [hp])).symm
      | false =>
        rw [List.filter_cons_of_pos (by simp [isContent, hp]), List.mapM_cons, ih]
        cases hxs : xs.mapM id with
        | error e => rfl
        | ok ps => exact congrArg Except.ok (List.filter_cons_of_pos (by simp [hp])).symm

/-- A step that comes upon a file that is no sidecar. -/
def Step.isContent : Step → Bool
  | .nothing _ => false
  | .found file => !isSidecar file.path

theorem filesOf_withoutSidecars {root : Path} {paths : List Path} {files : List ResolvedFile}
    (h : filesOf root paths = (files, none)) :
    filesOf root (withoutSidecars paths) = (files.filter fun f => !isSidecar f.path, none) := by
  have ⟨hpaths, hrel⟩ := filesOf_eq_none_iff.mp h
  refine filesOf_eq_none_iff.mpr ⟨?_, fun f hf => hrel f (List.mem_of_mem_filter hf)⟩
  rw [← hpaths, withoutSidecars, List.filter_map]
  rfl

/-- What a pattern comes upon but for sidecars is known from its paths but for sidecars. -/
theorem stepsOf_filter {t : FileTree} {root : Path} {pattern : String}
    (hrel : ∀ paths, pathsOf t root pattern = .ok paths →
      ∀ p ∈ paths, ∃ relPath, relativePath root p = .ok relPath) :
    ((stepsOf t root pattern).1.filter Step.isContent, (stepsOf t root pattern).2) =
      match (pathsOf t root pattern).map withoutSidecars with
      | .error e => ([], some e)
      | .ok paths => ((filesOf root paths).1.map .found, none) := by
  cases hpaths : pathsOf t root pattern with
  | error e =>
    rw [stepsOf, hpaths]
    rfl
  | ok paths =>
    obtain ⟨files, hfiles⟩ := filesOf_eq_none (hrel paths hpaths)
    have hkept : (files.map Step.found).filter Step.isContent =
        (files.filter fun f => !isSidecar f.path).map .found := by
      rw [List.filter_map]
      rfl
    simp only [Except.map, filesOf_withoutSidecars hfiles]
    rw [stepsOf, hpaths]
    cases paths with
    | nil =>
      obtain rfl : [] = files := (Prod.mk.inj hfiles).1
      rfl
    | cons p paths => simp only [hfiles, hkept]

end Selection

namespace Glob

/-- No component of a pattern is `..`, and none that stands for more than one name opens with a
dot. -/
structure StaysDown (pattern : String) : Prop where
  ne_up : ".." ∉ Text.piecesOf '/' pattern
  not_dots : ∀ name ∈ Text.piecesOf '/' pattern, ∀ c, Pattern.parse name = .ok c →
    c.literal? = none → name.toList.head? ≠ some '.'

theorem mem_of_mem_relative {name pattern : String}
    (h : name ∈ Text.piecesOf '/' (relative pattern)) : name ∈ Text.piecesOf '/' pattern := by
  have ⟨count, hcount⟩ := pieces_withoutHere pattern.toList
  rw [Text.piecesOf, relative, String.toList_ofList] at h
  rw [Text.piecesOf, hcount, List.map_append]
  exact List.mem_append_right _ h

/-- What a walk under a root goes by are components of the pattern. -/
theorem isComponent_of_mem_collapse {pattern : String} {comps : List Pattern}
    (htext : comps.map Pattern.text = withoutFinalSlash (Text.piecesOf '/' (relative pattern)))
    (hcomps : ∀ c ∈ comps, c.IsComponent) {c : Pattern} (hc : c ∈ collapse comps) :
    c.IsComponent ∧ c.text ∈ Text.piecesOf '/' pattern := by
  have hc := mem_of_mem_collapse hc
  refine ⟨hcomps c hc, mem_of_mem_relative (mem_of_mem_withoutFinalSlash ?_)⟩
  rw [← htext]
  exact List.mem_map_of_mem hc

theorem StaysDown.isDownward {pattern : String} (h : StaysDown pattern) {c : Pattern}
    (hcomp : c.IsComponent) (hmem : c.text ∈ Text.piecesOf '/' pattern) : c.IsDownward := by
  refine { hcomp with ne_up := fun hup => h.ne_up (hup ▸ hmem), not_dots := fun hlit => ?_ }
  rw [← Bool.not_eq_true]
  exact fun hopens => h.not_dots _ hmem c hcomp.parsed hlit (head?_of_opensWithDot hcomp hopens)

end Glob

namespace Selection

open Glob

section

variable {t u : FileTree} {root : Path} {above : Location} {pattern : String}
  {patterns : List String}

/-- Components that do not lead up lead to nothing outside the root. -/
theorem exists_relativePath (hroot : IsRoot t root above)
    (hcomps : ∀ c : Pattern, c.IsComponent → c.text ∈ Text.piecesOf '/' pattern → c.StaysBelow)
    {paths : List Path} (h : pathsOf t root pattern = .ok paths) :
    ∀ p ∈ paths, ∃ relPath, relativePath root p = .ok relPath := by
  have ⟨comps, found, htext, hcomp, hexpand, hsorted⟩ := (pathsOf_root_eq_ok_iff hroot).mp h
  intro p hmem
  rw [hsorted, List.mem_mergeSort] at hmem
  have hin : .ok p ∈ expand t ((Text.piecesOf '/' (relative pattern)).getLast? == some "")
      (.at t root) (collapse comps) := hexpand ▸ List.mem_map_of_mem hmem
  have ⟨last, hwalks, hlast⟩ := walks_of_mem_expand t _ _ _ hin
  have ⟨l, ⟨names, hl⟩, hspells⟩ := hwalks.exists_spells hroot.spells fun c hc =>
    have ⟨hc, htext⟩ := isComponent_of_mem_collapse htext hcomp hc
    hcomps c hc htext
  refine ⟨_, (relativePath_eq_ok_iff hroot.spells p _).mpr ⟨names.reverse, ?_, rfl⟩⟩
  rwa [List.reverse_reverse, hl, ← hlast]

/-- What a pattern finds is the same before and after but for sidecars. -/
theorem pathsOf_withoutSidecars (hgains : t.GainsSidecars u) (hroot : IsRoot t root above)
    (hfree : t.LinkFreeBelow above) (hp : StaysDown pattern) :
    (pathsOf u root pattern).map withoutSidecars =
      (pathsOf t root pattern).map withoutSidecars := by
  rw [pathsOf, pathsOf]
  cases hr : Route.parse (underRoot root pattern) with
  | error e => rfl
  | ok r =>
    obtain ⟨comps, htext, hcomps, hroute⟩ := (parse_underRoot hroot).mp hr
    have hfreeAlong : ∀ l, above <:+ l → t.LinkFreeAlong l := by
      rintro _ ⟨names, rfl⟩
      exact hfree.along hroot.isDirectory names
    have hat : Place.at u root = Place.at t root := congrArg (Place.mk root)
      (hgains.grows.isDirectory_eq hroot.spells (hfreeAlong above (List.suffix_refl above)))
    have hsame : (expand u r.onlyDirectories (.at u ⟨"/"⟩) r.components).filter isContent =
        (expand t r.onlyDirectories (.at t ⟨"/"⟩) r.components).filter isContent := by
      rw [hroute, expand_root hroot, expand_root (hgains.grows.isRoot hroot), hat]
      exact filter_expand hgains _ _
        (isAt_at hroot.spells (hfreeAlong above (List.suffix_refl above))) hfreeAlong fun c hc =>
          (isComponent_of_mem_collapse htext hcomps hc).elim hp.isDownward
    have hpaths (w : FileTree) : (r.paths w).map withoutSidecars =
        (((expand w r.onlyDirectories (.at w ⟨"/"⟩) r.components).filter isContent).mapM id).map
          (·.mergeSort Path.le) := by
      rw [mapM_filter_isContent, Route.paths, map_map_except, map_map_except]
      congr 1
      funext paths
      exact filter_mergeSort Path.le_trans Path.le_total _ paths
    have hkept : (r.paths u).map withoutSidecars = (r.paths t).map withoutSidecars := by
      rw [hpaths, hpaths, hsame]
    have hcomm (x : Except Unlistable (List Path)) :
        (x.mapError (Failure.unlistable pattern)).map withoutSidecars =
          (x.map withoutSidecars).mapError (.unlistable pattern) := by
      cases x with
      | error | ok => rfl
    exact (hcomm _).trans ((congrArg _ hkept).trans (hcomm _).symm)

/-- A survey of patterns that do not go up: what it comes upon and where it fails, but for
sidecars. -/
theorem survey_filter (hgains : t.GainsSidecars u) (hroot : IsRoot t root above)
    (hfree : t.LinkFreeBelow above) (hps : ∀ p ∈ patterns, StaysDown p) :
    (survey u root patterns).2 = (survey t root patterns).2 ∧
      (survey u root patterns).1.filter Step.isContent =
        (survey t root patterns).1.filter Step.isContent := by
  induction patterns with
  | nil => exact ⟨rfl, rfl⟩
  | cons p patterns ih =>
    have hp := hps p List.mem_cons_self
    have ih := ih fun q hq => hps q (List.mem_cons_of_mem _ hq)
    have hbelow : ∀ c : Pattern, c.IsComponent → c.text ∈ Text.piecesOf '/' p → c.StaysBelow :=
      fun c hc htext => (hp.isDownward hc htext).staysBelow
    have hsteps := stepsOf_filter fun _ => exists_relativePath (hgains.grows.isRoot hroot) hbelow
    rw [pathsOf_withoutSidecars hgains hroot hfree hp,
      ← stepsOf_filter fun _ => exists_relativePath hroot hbelow] at hsteps
    have ⟨hfound, hfailure⟩ := Prod.mk.inj hsteps
    rw [survey, survey]
    rcases hu : stepsOf u root p with ⟨after, failure⟩
    rcases ht : stepsOf t root p with ⟨before, failure'⟩
    rw [hu, ht] at hfound hfailure
    obtain rfl : failure = failure' := hfailure
    cases failure with
    | some e => exact ⟨rfl, hfound⟩
    | none => exact ⟨ih.1, by simp only [List.filter_append, hfound, ih.2]⟩

end

section

variable {t u : FileTree} {exclude : List Pattern} {seen seen' : List String} {steps : List Step}

theorem judge_of_isSidecar {file : ResolvedFile} (h : isSidecar file.path = true) :
    judge t exclude file = .passedOver file := by
  rw [judge, h, Bool.or_true, if_pos rfl]

/-- Sidecars can be taken out before files are judged: none shares its path with a file that is no
sidecar. -/
theorem selected_filter (hsame : ∀ f g, .found f ∈ steps → .found g ∈ steps →
      f.relPath = g.relPath → isSidecar f.path = isSidecar g.path)
    (hseen : ∀ f, .found f ∈ steps → isSidecar f.path = false →
      (f.relPath ∈ seen ↔ f.relPath ∈ seen')) :
    selected t exclude seen steps = selected t exclude seen' (steps.filter Step.isContent) := by
  induction steps generalizing seen seen' with
  | nil => rfl
  | cons step steps ih =>
    have ih {seen seen' : List String} := @ih seen seen' fun f g hf hg =>
      hsame f g (List.mem_cons_of_mem _ hf) (List.mem_cons_of_mem _ hg)
    have hseen' : ∀ f, .found f ∈ steps → isSidecar f.path = false →
        (f.relPath ∈ seen ↔ f.relPath ∈ seen') := fun f hf => hseen f (List.mem_cons_of_mem _ hf)
    cases step with
    | nothing p =>
      rw [selected_nothing, List.filter_cons_of_neg (by simp [Step.isContent]), ih hseen']
    | found file =>
      cases hside : isSidecar file.path with
      | true =>
        rw [List.filter_cons_of_neg (by simp [Step.isContent, hside])]
        by_cases hmem : file.relPath ∈ seen
        · rw [selected_of_mem_seen hmem, ih hseen']
        · rw [selected_of_not_mem_seen hmem, judge_of_isSidecar hside]
          refine ih fun f hf hcontent => ?_
          have hne : f.relPath ≠ file.relPath := fun heq => by
            have := hsame f file (List.mem_cons_of_mem _ hf) List.mem_cons_self heq
            rw [hcontent, hside] at this
            contradiction
          rw [List.mem_cons, or_iff_right hne, hseen' f hf hcontent]
      | false =>
        rw [List.filter_cons_of_pos (by simp [Step.isContent, hside])]
        have hfirst := hseen file List.mem_cons_self hside
        by_cases hmem : file.relPath ∈ seen
        · rw [selected_of_mem_seen hmem, selected_of_mem_seen (hfirst.mp hmem), ih hseen']
        · rw [selected_of_not_mem_seen hmem, selected_of_not_mem_seen (hmem ∘ hfirst.mpr)]
          congr 1
          refine ih fun f hf hcontent => ?_
          rw [List.mem_cons, List.mem_cons, hseen' f hf hcontent]

theorem selected_congr (h : ∀ f, .found f ∈ steps → judge u exclude f = judge t exclude f) :
    selected u exclude seen steps = selected t exclude seen steps := by
  induction steps generalizing seen with
  | nil => rfl
  | cons step steps ih =>
    have ih {seen : List String} := @ih seen fun f hf => h f (List.mem_cons_of_mem _ hf)
    cases step with
    | nothing p => rw [selected_nothing, selected_nothing, ih]
    | found file =>
      by_cases hmem : file.relPath ∈ seen
      · rw [selected_of_mem_seen hmem, selected_of_mem_seen hmem, ih]
      · rw [selected_of_not_mem_seen hmem, selected_of_not_mem_seen hmem, ih,
          h file List.mem_cons_self]

end

end Selection

section

variable {t u : FileTree} {root : Path} {above : Location} {patterns : List String}

theorem Selection.relativePath_of_mem_survey {steps : List Selection.Step}
    (h : Selection.survey t root patterns = (steps, none))
    {file : ResolvedFile} (hf : .found file ∈ steps) :
    relativePath root file.path = .ok file.relPath :=
  have ⟨_, _, _, _, _, hrel⟩ := (Selection.mem_survey h).mp hf
  hrel

/-- Patterns that do not go up select the same files, in the same order, and fail alike, whatever
sidecars there are. -/
theorem resolve_eq_of_gainsSidecars (hgains : t.GainsSidecars u) (hroot : IsRoot t root above)
    (hfree : t.LinkFreeBelow above) (hps : ∀ p ∈ patterns, Glob.StaysDown p)
    (exclude : List Glob.Pattern) :
    resolve u root patterns exclude = resolve t root patterns exclude := by
  obtain ⟨hfailure, hsteps⟩ := Selection.survey_filter hgains hroot hfree hps
  rcases hu : Selection.survey u root patterns with ⟨after, failure⟩
  rcases ht : Selection.survey t root patterns with ⟨before, failure'⟩
  rw [hu, ht] at hfailure hsteps
  obtain rfl : failure = failure' := hfailure
  cases failure with
  | some e => rw [resolve, resolve, resolveUnder, resolveUnder, hu, ht]
  | none =>
    have hselected {w : FileTree} (hw : IsRoot w root above) {steps : List Selection.Step}
        (hsurvey : Selection.survey w root patterns = (steps, none)) :
        resolve w root patterns exclude =
          .ok (Selection.selected w exclude [] (steps.filter Selection.Step.isContent)) := by
      refine resolve_eq_ok_iff.mpr ⟨steps, hsurvey, Eq.symm ?_⟩
      refine Selection.selected_filter (fun f g hf hg heq => ?_) fun _ _ _ => Iff.rfl
      have hf := Selection.relativePath_of_mem_survey hsurvey hf
      have hg := Selection.relativePath_of_mem_survey hsurvey hg
      exact isSidecar_eq_of_same (same_of_relativePath hw.spells.text_ne (heq ▸ hf) hg)
    rw [hselected (hgains.grows.isRoot hroot) hu, hselected hroot ht, hsteps]
    refine congrArg Except.ok (Selection.selected_congr fun f hf => ?_)
    have hrel := Selection.relativePath_of_mem_survey ht (List.mem_of_mem_filter hf)
    obtain ⟨names, hspells, _⟩ := (relativePath_eq_ok_iff hroot.spells _ _).mp hrel
    rw [Selection.judge, Selection.judge,
      hgains.grows.isDirectory_eq hspells (hfree.along hroot.isDirectory _)]

end

namespace Selection

open Glob

section

variable {t : FileTree} {exclude : List Pattern} {seen seen' : List String}
  {steps before after : List Step} {file : ResolvedFile}

/-- What is selected when more was seen before is selected when less was. -/
theorem mem_selected_of_subset (hsub : seen ⊆ seen') (h : file ∈ selected t exclude seen' steps) :
    file ∈ selected t exclude seen steps := by
  induction steps generalizing seen seen' with
  | nil => exact h
  | cons step steps ih =>
    cases step with
    | nothing p =>
      rw [selected_nothing] at h ⊢
      exact ih hsub h
    | found f =>
      by_cases hmem : f.relPath ∈ seen
      · rw [selected_of_mem_seen hmem]
        rw [selected_of_mem_seen (hsub hmem)] at h
        exact ih hsub h
      · rw [selected_of_not_mem_seen hmem, List.mem_append]
        by_cases hmem' : f.relPath ∈ seen'
        · rw [selected_of_mem_seen hmem'] at h
          exact .inr (ih (List.cons_subset.mpr ⟨hmem', hsub⟩) h)
        · rw [selected_of_not_mem_seen hmem', List.mem_append] at h
          exact h.imp id (ih (List.cons_subset_cons _ hsub))

/-- What is selected in two parts is selected in one of them. -/
theorem mem_selected_append (h : file ∈ selected t exclude seen (before ++ after)) :
    file ∈ selected t exclude seen before ∨ file ∈ selected t exclude seen after := by
  induction before generalizing seen with
  | nil => exact .inr h
  | cons step before ih =>
    rw [List.cons_append] at h
    cases step with
    | nothing p =>
      rw [selected_nothing] at h ⊢
      exact ih h
    | found f =>
      by_cases hmem : f.relPath ∈ seen
      · rw [selected_of_mem_seen hmem] at h ⊢
        exact ih h
      · rw [selected_of_not_mem_seen hmem, List.mem_append] at h ⊢
        cases h with
        | inl h => exact .inl (.inl h)
        | inr h =>
          exact (ih h).imp .inr (mem_selected_of_subset (List.subset_cons_self _ seen))

/-- Of the files that are come upon by one relative path, the first is selected if all would be. -/
theorem exists_mem_selected (hsteps : .found file ∈ steps) (hseen : file.relPath ∉ seen)
    (hjudge : ∀ f, .found f ∈ steps → f.relPath = file.relPath →
      judge t exclude f = .selected f) :
    ∃ f ∈ selected t exclude seen steps, f.relPath = file.relPath := by
  induction steps generalizing seen with
  | nil => simp at hsteps
  | cons step steps ih =>
    have hlater : ∀ f, .found f ∈ steps → f.relPath = file.relPath →
        judge t exclude f = .selected f := fun f hf => hjudge f (List.mem_cons_of_mem _ hf)
    have hsteps' : step = .found file ∨ .found file ∈ steps :=
      (List.mem_cons.mp hsteps).imp Eq.symm id
    cases step with
    | nothing p =>
      rw [selected_nothing]
      exact ih (hsteps'.resolve_left nofun) hseen hlater
    | found f =>
      by_cases hf : f.relPath = file.relPath
      · rw [selected_of_not_mem_seen (hf ▸ hseen)]
        refine ⟨f, List.mem_append_left _ (mem_judge_selected?.mpr ?_), hf⟩
        exact hjudge f List.mem_cons_self hf
      · have hmem := hsteps'.resolve_left fun h => hf (congrArg _ (Step.found.inj h))
        by_cases hfseen : f.relPath ∈ seen
        · rw [selected_of_mem_seen hfseen]
          exact ih hmem hseen hlater
        · rw [selected_of_not_mem_seen hfseen]
          have hseen' : file.relPath ∉ f.relPath :: seen := by
            rw [List.mem_cons, not_or]
            exact ⟨Ne.symm hf, hseen⟩
          have ⟨g, hg, hrel⟩ := ih hmem hseen' hlater
          exact ⟨g, List.mem_append_right _ hg, hrel⟩

/-- Patterns behind others are surveyed once those have not failed. -/
theorem survey_append (t : FileTree) (root : Path) (ps qs : List String) :
    survey t root (ps ++ qs) = match survey t root ps with
      | (steps, some e) => (steps, some e)
      | (steps, none) => (steps ++ (survey t root qs).1, (survey t root qs).2) := by
  induction ps with
  | nil => rfl
  | cons p ps ih =>
    rw [List.cons_append, survey, survey, ih]
    rcases stepsOf t root p with ⟨steps, _ | e⟩
    · rcases survey t root ps with ⟨more, _ | e⟩
      · simp only [List.append_assoc]
      · rfl
    · rfl

end

end Selection

open Selection in
/-- Two lists of patterns at once select only what one of them selects. A file that one of them
selects is selected, be it by another spelling, if no spelling of its path is a directory's. -/
theorem resolve_append {t : FileTree} {root : Path} {above : Location} (hroot : root.Spells above)
    {ps qs : List String} {exclude : List Glob.Pattern} {files more : List ResolvedFile}
    (hfiles : resolve t root ps exclude = .ok files)
    (hmore : resolve t root qs exclude = .ok more) :
    ∃ both, resolve t root (ps ++ qs) exclude = .ok both ∧
      (∀ f ∈ both, f ∈ files ∨ f ∈ more) ∧
      ∀ f, f ∈ files ∨ f ∈ more → (∀ p, p.Same f.path → t.isDirectory p = false) →
        ∃ g ∈ both, g.relPath = f.relPath := by
  obtain ⟨before, hbefore, rfl⟩ := resolve_eq_ok_iff.mp hfiles
  obtain ⟨after, hafter, rfl⟩ := resolve_eq_ok_iff.mp hmore
  have hsurvey : survey t root (ps ++ qs) = (before ++ after, none) := by
    rw [survey_append, hbefore, hafter]
  refine ⟨_, resolve_eq_ok_iff.mpr ⟨_, hsurvey, rfl⟩, fun f => mem_selected_append, ?_⟩
  intro f hf hdir
  have ⟨hfound, hjudge⟩ : .found f ∈ before ++ after ∧ judge t exclude f = .selected f := by
    cases hf with
    | inl h =>
      have ⟨hmem, _, hjudge⟩ := judged_of_mem_selected h
      exact ⟨List.mem_append_left _ hmem, hjudge⟩
    | inr h =>
      have ⟨hmem, _, hjudge⟩ := judged_of_mem_selected h
      exact ⟨List.mem_append_right _ hmem, hjudge⟩
  have ⟨_, _, hside, hkept⟩ := judge_eq_selected_iff.mp hjudge
  refine exists_mem_selected hfound (by simp) fun g hg hrel => judge_eq_selected_iff.mpr ?_
  have hsame : g.path.Same f.path := same_of_relativePath hroot.text_ne
    (relativePath_of_mem_survey hsurvey hg) (hrel ▸ relativePath_of_mem_survey hsurvey hfound)
  exact ⟨rfl, hdir _ hsame, (isSidecar_eq_of_same hsame).trans hside, hrel ▸ hkept⟩

end Sidecar
