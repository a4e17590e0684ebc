import Sidecar.Proofs.Denotation
import Sidecar.Proofs.Reselection

/-! What leads out of the root: only a component that stands for `..`. It need not be spelled so,
for a wildcard that opens with a dot is tried on `.` and `..` too. -/

namespace Sidecar

namespace Glob

/-- A component that stands for `..`: itself, or a wildcard that opens with a dot and describes
it. -/
def LeadsUp (name : String) : Prop :=
  name.toList.head? = some '.' ∧ Describes name ".."

theorem staysBelow_of_not_leadsUp {c : Pattern} (hc : c.IsComponent) (h : ¬LeadsUp c.text) :
    c.StaysBelow := by
  refine { hc with not_up := fun hopens hm => h ⟨head?_of_opensWithDot hc hopens, ?_⟩ }
  exact (Pattern.matches_iff_describes hc.parsed).mp hm

/-- What a wildcard that opens with a dot asks for first is the dot. -/
theorem opensWithDot_of_head? {c : Pattern} (hc : c.IsComponent)
    (h : c.text.toList.head? = some '.') : c.opensWithDot = true := by
  obtain ⟨cs, hcs⟩ := List.head?_eq_some_iff.mp h
  have htokens := hc.tokens_eq
  rw [hcs, tokens_ordinary _ (by decide)] at htokens
  obtain ⟨ts, _, hts⟩ := exists_of_map_eq_ok htokens
  rw [Pattern.opensWithDot, ← hts]
  rfl

/-- A component that leads up: it opens with a dot, and so is no `**`. -/
theorem LeadsUp.exists_component {name : String} (h : LeadsUp name) (hslash : '/' ∉ name.toList) :
    ∃ c : Pattern, c.text = name ∧ c.IsComponent ∧ c.opensWithDot = true ∧ c.Matches ".." ∧
      c.isRecursive = false := by
  have ⟨hdot, hdescribes⟩ := h
  have ⟨ts, hts, hm⟩ := hdescribes.exists_tokens
  have hparse : Pattern.parse name = .ok ⟨name, ts⟩ := Pattern.parse_eq_ok_iff.mpr ⟨rfl, hts⟩
  have hc := Pattern.isComponent_of_parse hparse hslash
  refine ⟨⟨name, ts⟩, rfl, hc, opensWithDot_of_head? hc hdot, hm, ?_⟩
  rw [← Bool.not_eq_true, hc.isRecursive_iff]
  rintro rfl
  simp at hdot

/-- What a single wildcard finds in a directory: names that it matches, `..` and `.` among them if
it opens with a dot. -/
theorem expand_single {t : FileTree} {place : Place} {c : Pattern} {found : List (String × Entry)}
    (hlit : c.literal? = none) (hdir : place.isDirectory = true)
    (hlist : t.list place.path = .ok found) (hrec : c.isRecursive = false) :
    expand t false place [c] =
      (((if c.opensWithDot then ["..", "."] else []) ++ found.map Prod.fst).filter c.matches).map
        fun name => .ok (place.path.child name) := by
  rw [expand_wildcard hlit hdir hlist, List.filter_append, List.map_append]
  congr 1
  · rw [expandDots, expandDots, expand_nil, expand_nil]
    cases c.opensWithDot <;> cases hup : c.matches ".." <;> cases hhere : c.matches "." <;>
      simp [hup, hhere, Place.at]
  · clear hlist
    induction found with
    | nil => rfl
    | cons x found ih =>
      have hinto : expandInto t false place c [] x.1 x.2 =
          if c.matches x.1 then [.ok (place.path.child x.1)] else [] := by
        simp [expandInto, hrec, expand_nil, Place.below]
      rw [List.flatMap_cons, hinto, ih, List.map_cons]
      cases hx : c.matches x.1 with
      | true =>
        rw [List.filter_cons_of_pos hx]
        rfl
      | false =>
        rw [List.filter_cons_of_neg (by simp [hx])]
        rfl

end Glob

open Glob

/-- A path is under the root or it is reported to be outside. -/
theorem relativePath_cases (root p : Path) : (∃ relPath, relativePath root p = .ok relPath) ∨
    relativePath root p = .error (.outsideRoot p root) := by
  cases h : relativePath root p with
  | ok relPath => exact .inl ⟨relPath, rfl⟩
  | error e => exact .inr (by rw [eq_outsideRoot_of_relativePath h])

theorem relativePath_child_up {root : Path} {above : Location} (hroot : root.Spells above) :
    relativePath root (root.child "..") = .error (.outsideRoot (root.child "..") root) := by
  refine (relativePath_cases root (root.child "..")).resolve_left ?_
  rintro ⟨relPath, h⟩
  have ⟨names, hspells, _⟩ := (relativePath_eq_ok_iff hroot _ _).mp h
  exact Path.not_spells_child_up hroot.text_ne hspells

namespace Selection

variable {t : FileTree} {root : Path} {above : Location}

/-- Where only one of the paths is not under the root, it is the one that is reported. -/
theorem filesOf_eq_some {paths : List Path} {p : Path} {e : Failure} (hmem : p ∈ paths)
    (hp : relativePath root p = .error e)
    (hothers : ∀ q ∈ paths, q = p ∨ ∃ relPath, relativePath root q = .ok relPath) :
    (filesOf root paths).2 = some e := by
  induction paths with
  | nil => contradiction
  | cons q paths ih =>
    rw [filesOf, relativePath_inBytes]
    cases hothers q List.mem_cons_self with
    | inl heq => rw [heq, hp]
    | inr hok =>
      obtain ⟨relPath, hq⟩ := hok
      rw [hq]
      have hne : p ≠ q := by
        rintro rfl
        rw [hp] at hq
        contradiction
      exact ih ((List.mem_cons.mp hmem).resolve_left hne)
        fun r hr => hothers r (List.mem_cons_of_mem _ hr)

/-- What is reported to be outside the root is a path that a pattern came upon. -/
theorem exists_path_of_filesOf {paths : List Path} {files : List ResolvedFile} {e : Failure}
    (h : filesOf root paths = (files, some e)) : ∃ p ∈ paths, relativePath root p = .error e := by
  induction paths generalizing files with
  | nil => simp [filesOf] at h
  | cons p paths ih =>
    rw [filesOf, relativePath_inBytes] at h
    split at h
    next e' hp =>
      rw [← Option.some.inj (Prod.mk.inj h).2]
      exact ⟨p, List.mem_cons_self, hp⟩
    next =>
      obtain ⟨q, hq, hrel⟩ := ih (Prod.ext rfl (Prod.mk.inj h).2)
      exact ⟨q, List.mem_cons_of_mem _ hq, hrel⟩

theorem exists_stepsOf_of_survey {patterns : List String} {steps : List Step} {e : Failure}
    (h : survey t root patterns = (steps, some e)) :
    ∃ p ∈ patterns, (stepsOf t root p).2 = some e := by
  induction patterns generalizing steps with
  | nil => simp [survey] at h
  | cons p patterns ih =>
    rw [survey] at h
    split at h
    next hp =>
      refine ⟨p, List.mem_cons_self, ?_⟩
      rw [hp]
      exact (Prod.mk.inj h).2
    next =>
      obtain ⟨q, hq, hstep⟩ := ih (Prod.ext rfl (Prod.mk.inj h).2)
      exact ⟨q, List.mem_cons_of_mem _ hq, hstep⟩

/-- A pattern's own failures name the pattern, so only a path can be outside the root. -/
theorem pathsOf_ne_outsideRoot {pattern : String} {p r : Path} :
    pathsOf t root pattern ≠ .error (.outsideRoot p r) := by
  intro h
  rw [pathsOf] at h
  cases hr : Route.parse (underRoot root pattern) with
  | error => simp [hr, Except.mapError, bind, Except.bind] at h
  | ok route =>
    cases hpaths : route.paths t <;> simp [hr, hpaths, Except.mapError, bind, Except.bind] at h

theorem not_outside_of_staysBelow (hroot : IsRoot t root above) {pattern : String}
    (hcomps : ∀ c : Pattern, c.IsComponent → c.text ∈ Text.piecesOf '/' pattern → c.StaysBelow)
    {p r : Path} : (stepsOf t root pattern).2 ≠ some (.outsideRoot p r) := by
  intro h
  unfold stepsOf at h
  split at h
  next hpaths => exact pathsOf_ne_outsideRoot (hpaths.trans (congrArg _ (Option.some.inj h)))
  next => contradiction
  next paths _ hpaths =>
    have ⟨q, hq, hrel⟩ := exists_path_of_filesOf (Prod.ext rfl h)
    have ⟨relPath, hok⟩ := exists_relativePath hroot hcomps hpaths q hq
    rw [hrel] at hok
    contradiction

/-- The paths of a pattern of one component. -/
theorem pathsOf_component (hroot : IsRoot t root above) {c : Pattern} (hc : c.IsComponent)
    (hempty : c.text ≠ "") (hhere : c.text ≠ ".") {found : List Path}
    (hexpand : expand t false (.at t root) [c] = found.map .ok) :
    pathsOf t root c.text = .ok (found.mergeSort Path.le) := by
  have hpieces : Text.piecesOf '/' c.text = [c.text] := by
    rw [Text.piecesOf, Text.pieces_eq_singleton hc.slashFree, List.map_singleton,
      String.ofList_toList]
  have hrelative : relative c.text = c.text := relative_eq (by simpa [hpieces] using hhere.symm)
  refine (pathsOf_root_eq_ok_iff hroot).mpr ⟨[c], found, ?_, by simpa using hc, ?_, rfl⟩
  · rw [hrelative, hpieces, withoutFinalSlash, if_neg (by simpa using hempty)]
    rfl
  · have honly : ([c.text].getLast? == some "") = false := by simpa using hempty
    rw [hrelative, hpieces, honly]
    exact hexpand

/-- What a component that leads up finds in the root: `..`, and else only `.` and entries. -/
theorem exists_expand_of_leadsUp (hroot : IsRoot t root above) {c : Pattern}
    (hopens : c.opensWithDot = true) (hm : c.Matches "..") (hrec : c.isRecursive = false) :
    ∃ names : List String,
      expand t false (.at t root) [c] = names.map (fun n => .ok (root.child n)) ∧
      ".." ∈ names ∧ ∀ n ∈ names, n = ".." ∨ '/' ∉ n.toList ∧ n ≠ ".." := by
  have hdir := FileTree.isDirectory_of_get? hroot.spells hroot.isDirectory hroot.short
  cases hlit : c.literal? with
  | some name =>
    obtain rfl := (Pattern.matches_of_literal? hlit).mp hm
    refine ⟨[".."], ?_, by simp, by simp⟩
    have hleads : (Place.at t root).leadsTo t ".." = true := by
      rw [Place.leadsTo, if_pos (Or.inr rfl)]
      exact hdir
    rw [expand_literal hlit, if_pos hleads, expand_nil]
    rfl
  | none =>
    have hlist := FileTree.list_of_directory hroot.spells hroot.isDirectory hroot.short
    refine ⟨_, expand_single hlit hdir hlist hrec, ?_, fun n hn => ?_⟩
    · rw [hopens]
      exact List.mem_filter.mpr ⟨by simp, (c.matches_iff _).mpr hm⟩
    · have hn := (List.mem_filter.mp hn).1
      rw [hopens, if_pos rfl, List.mem_append] at hn
      cases hn with
      | inl hdots =>
        rw [List.mem_pair] at hdots
        exact hdots.imp_right fun hhere => by simp [hhere]
      | inr hentry =>
        obtain ⟨x, hx, hname⟩ := List.mem_map.mp hentry
        obtain ⟨_, _, hup, hslash⟩ := name_of_list hlist hx
        exact .inr (hname ▸ ⟨hslash, hup⟩)

/-- Of what a component that leads up finds in the root, the path above it alone is outside. -/
theorem stepsOf_of_leadsUp (hroot : IsRoot t root above) {name : String}
    (hslash : '/' ∉ name.toList) (hup : LeadsUp name) :
    (stepsOf t root name).2 = some (.outsideRoot (root.child "..") root) := by
  obtain ⟨c, rfl, hc, hopens, hm, hrec⟩ := hup.exists_component hslash
  obtain ⟨names, hexpand, hmem, hnames⟩ := exists_expand_of_leadsUp hroot hopens hm hrec
  have hempty : c.text ≠ "" := by
    intro h
    simp [LeadsUp, h] at hup
  have hhere : c.text ≠ "." := by
    intro h
    rw [hc.eq_of_text isComponent_here h, ← Pattern.matches_iff] at hm
    contradiction
  rw [← Function.comp_def, ← List.map_map] at hexpand
  have hpaths := pathsOf_component hroot hc hempty hhere hexpand
  have hfound : root.child ".." ∈ (names.map root.child).mergeSort Path.le :=
    List.mem_mergeSort.mpr (List.mem_map_of_mem hmem)
  have hfiles := filesOf_eq_some hfound (relativePath_child_up hroot.spells) fun q hq => by
    obtain ⟨n, hn, rfl⟩ := List.mem_map.mp (List.mem_mergeSort.mp hq)
    refine (hnames n hn).imp (congrArg root.child) fun ⟨hslash, hup⟩ => ?_
    have ⟨added, hbelow⟩ := suffix_below n (List.suffix_refl above)
    refine ⟨_, (relativePath_eq_ok_iff hroot.spells _ _).mpr ⟨added.reverse, ?_, rfl⟩⟩
    rw [List.reverse_reverse, hbelow]
    exact spells_child hroot.spells hup hslash
  rw [stepsOf, hpaths]
  split
  next => contradiction
  next hnil =>
    rw [Except.ok.inj hnil] at hfound
    contradiction
  next paths _ hsome =>
    rw [← Except.ok.inj hsome]
    exact hfiles

end Selection

theorem resolve_of_leadsUp {t : FileTree} {root : Path} {above : Location}
    (hroot : IsRoot t root above) {name : String} (hslash : '/' ∉ name.toList)
    (hup : LeadsUp name) (exclude : List Pattern) :
    resolve t root [name] exclude = .error (.outsideRoot (root.child "..") root) := by
  have hsteps := Selection.stepsOf_of_leadsUp hroot hslash hup
  rw [resolve, resolveUnder, Selection.survey]
  rcases hname : Selection.stepsOf t root name with ⟨steps, failure⟩
  rw [hname] at hsteps
  obtain rfl : failure = _ := hsteps
  rfl

/-- Selection reports a path outside the root only if some component leads up, and one that does
makes it so report, whatever else it finds. -/
theorem resolve_outside {t : FileTree} {q root : Path} (hroot : canonicalRoot t q = .ok root)
    (exclude : List Pattern) :
    (∀ patterns p r, resolve t root patterns exclude = .error (.outsideRoot p r) →
      ∃ pattern ∈ patterns, ∃ name ∈ Text.piecesOf '/' pattern, LeadsUp name) ∧
    ∀ name, '/' ∉ name.toList → LeadsUp name →
      resolve t root [name] exclude = .error (.outsideRoot (root.child "..") root) := by
  have ⟨above, hisRoot⟩ := isRoot_of_canonicalRoot hroot
  constructor
  · intro patterns p r h
    have ⟨steps, hsurvey⟩ := resolve_eq_error_iff.mp h
    have ⟨pattern, hmem, hsteps⟩ := Selection.exists_stepsOf_of_survey hsurvey
    refine ⟨pattern, hmem, ?_⟩
    by_contra hnone
    refine Selection.not_outside_of_staysBelow hisRoot (fun c hc htext => ?_) hsteps
    exact staysBelow_of_not_leadsUp hc fun hup => hnone ⟨c.text, htext, hup⟩
  · intro name hslash hup
    exact resolve_of_leadsUp hisRoot hslash hup exclude

theorem leadsUp_dotStar : LeadsUp ".*" :=
  ⟨by decide, @DescribesFrom.ordinary true '.' ['*'] ['.'] (by decide)
    (@DescribesFrom.run false ['.'] [] [] (by decide) (by decide) .nil)⟩

/-- Dotfiles cannot be asked for by `.*`: no component is `..`, and yet the path above the root is
reported. -/
theorem resolve_dotStar_oneFile : ".." ∉ Text.piecesOf '/' ".*" ∧
    resolve FileTree.oneFile ⟨"/"⟩ [".*"] [] = .error (.outsideRoot ⟨"/.."⟩ ⟨"/"⟩) := by
  exact ⟨by decide, resolve_of_leadsUp isRoot_oneFile (by decide) leadsUp_dotStar []⟩

theorem resolve_outside_oneFile :
    canonicalRoot FileTree.oneFile ⟨"/"⟩ = .ok ⟨"/"⟩ ∧
    resolve FileTree.oneFile ⟨"/"⟩ [".?"] [] = .error (.outsideRoot ⟨"/.."⟩ ⟨"/"⟩) := by
  have hroot := isRoot_oneFile.canonicalRoot_eq
  have hup : LeadsUp ".?" :=
    ⟨by decide, @DescribesFrom.ordinary true '.' ['?'] ['.'] (by decide)
      (.anyChar (by decide) .nil)⟩
  exact ⟨hroot, (resolve_outside hroot []).2 ".?" (by decide) hup⟩

end Sidecar
