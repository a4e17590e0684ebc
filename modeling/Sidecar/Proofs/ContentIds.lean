import Mathlib
import Sidecar.Identity
import Sidecar.Proofs.Spelling

/-! What a content id says. Behind its domain it has the words of a file's name: the maximal runs of
letters and digits before a known extension, in capitals and with one underscore between each two.
The name, its stem and its runs are told here as relations, apart from the passes that make an id of
them. -/

namespace Sidecar.Identity

open Text

/-- What stands behind the last slash of a path. -/
def IsLastSegment (path name : List Char) : Prop :=
  '/' ∉ name ∧ (path = name ∨ ∃ dir, path = dir ++ '/' :: name)

/-- A letter in either case. As Unicode folds cases, `ſ` is a third form of `s`; the other letters
of the known extensions have two. -/
def IsLetter (lower c : Char) : Prop :=
  c = lower ∨ c = lower.toUpper ∨ lower = 's' ∧ c = 'ſ'

/-- An extension that a content id leaves out. -/
def IsExtension (ext : List Char) : Prop :=
  ∃ known ∈ [".json", ".csv", ".sql"], List.Forall₂ IsLetter known.toList ext

/-- A name without one known extension at its end. -/
def IsStem (name stem : List Char) : Prop :=
  (∃ ext, IsExtension ext ∧ name = stem ++ ext) ∨
    (¬∃ before ext, IsExtension ext ∧ name = before ++ ext) ∧ stem = name

/-- Where no letter or digit comes next. -/
def Breaks (cs : List Char) : Prop :=
  ∀ c ∈ cs.head?, isLetterOrDigit c = false

/-- The maximal runs of letters and digits in a text, in their order. -/
inductive Runs : List Char → List (List Char) → Prop where
  | none {gap : List Char} (hgap : ∀ c ∈ gap, isLetterOrDigit c = false) : Runs gap []
  | run {gap run rest : List Char} {runs : List (List Char)}
      (hgap : ∀ c ∈ gap, isLetterOrDigit c = false) (hne : run ≠ [])
      (hrun : ∀ c ∈ run, isLetterOrDigit c = true) (hend : Breaks rest) (h : Runs rest runs) :
      Runs (gap ++ (run ++ rest)) (run :: runs)

/-- The words of a path's content id. -/
def HasWords (path : String) (words : List (List Char)) : Prop :=
  ∃ name stem runs, IsLastSegment path.toList name ∧ IsStem name stem ∧ Runs stem runs ∧
    words = runs.map (List.map Char.toUpper)

/-- Capitals and digits, with underscores between them that stand alone. -/
structure IsToken (cs : List Char) : Prop where
  chars : ∀ c ∈ cs, c.isUpper = true ∨ c.isDigit = true ∨ c = '_'
  head : cs.head? ≠ some '_'
  last : cs.getLast? ≠ some '_'
  single : ¬['_', '_'] <:+: cs

/-! The last segment. -/

theorem takeWhile_reverse_append {sep : Char} {cs : List Char} (h : sep ∉ cs) (before : List Char) :
    (before ++ sep :: cs).reverse.takeWhile (· ≠ sep) = cs.reverse := by
  have hall : ∀ c ∈ cs.reverse, decide (c ≠ sep) = true := by
    intro c hc
    apply decide_eq_true
    rintro rfl
    exact h (List.mem_reverse.mp hc)
  rw [List.reverse_append, List.reverse_cons, List.append_assoc, List.takeWhile_append_of_pos hall]
  simp

/-- A text is cut at its last separator. -/
theorem eq_append_of_dropWhile {sep c : Char} {cs before : List Char}
    (h : cs.reverse.dropWhile (· ≠ sep) = c :: before) :
    cs = before.reverse ++ sep :: (cs.reverse.takeWhile (· ≠ sep)).reverse := by
  have hc : c = sep := by
    have := List.head?_dropWhile_not (fun c => decide (c ≠ sep)) cs.reverse
    rw [h] at this
    simpa using this
  have hsplit : cs = (cs.reverse.dropWhile (· ≠ sep)).reverse ++
      (cs.reverse.takeWhile (· ≠ sep)).reverse := by
    rw [← List.reverse_append, List.takeWhile_append_dropWhile, List.reverse_reverse]
  rwa [h, hc, List.reverse_cons, List.append_assoc] at hsplit

theorem isLastSegment_lastSegment (path : List Char) : IsLastSegment path (lastSegment path) := by
  constructor
  · intro hmem
    have := List.mem_takeWhile_imp (List.mem_reverse.mp hmem)
    simp at this
  · cases hdrop : path.reverse.dropWhile (· ≠ '/') with
    | nil =>
      have hwhole := List.takeWhile_append_dropWhile (p := (· ≠ '/')) (l := path.reverse)
      rw [hdrop, List.append_nil] at hwhole
      exact .inl (by rw [lastSegment, hwhole, List.reverse_reverse])
    | cons c dir => exact .inr ⟨dir.reverse, eq_append_of_dropWhile hdrop⟩

theorem IsLastSegment.eq {path name : List Char} (h : IsLastSegment path name) :
    lastSegment path = name := by
  obtain ⟨hslash, rfl | ⟨dir, rfl⟩⟩ := h
  · have hall : path.reverse.takeWhile (· ≠ '/') = path.reverse := by
      apply List.takeWhile_eq_self_iff.mpr
      intro c hc
      apply decide_eq_true
      rintro rfl
      exact hslash (List.mem_reverse.mp hc)
    unfold lastSegment
    rw [hall, List.reverse_reverse]
  · unfold lastSegment
    rw [takeWhile_reverse_append hslash, List.reverse_reverse]

/-! The stem. -/

theorem toLower_eq_iff {lower c : Char} (h : lower.isUpper = false) :
    c.toLower = lower ↔ c = lower ∨ c = lower.toUpper := by
  have hlower : lower.toLower = lower := Char.toLower_eq_of_not_isUpper (by simp [h])
  constructor
  · rintro rfl
    by_cases hc : c.isUpper
    · right
      rw [Char.toUpper_toLower_eq_toUpper,
        Char.toUpper_eq_of_not_isLower (Char.not_isLower_of_isUpper hc)]
    · left
      exact (Char.toLower_eq_of_not_isUpper hc).symm
  · rintro (rfl | rfl)
    · exact hlower
    · rw [Char.toLower_toUpper_eq_toLower, hlower]

theorem sameLetter_iff {lower c : Char} (h : lower.isUpper = false) :
    sameLetter lower c = true ↔ IsLetter lower c := by
  unfold sameLetter IsLetter
  rw [Bool.or_eq_true, Bool.and_eq_true, beq_iff_eq, beq_iff_eq, beq_iff_eq, toLower_eq_iff h,
    or_assoc]

theorem spells_iff {lower text : List Char} (h : ∀ c ∈ lower, c.isUpper = false) :
    spells lower text = true ↔ List.Forall₂ IsLetter lower text := by
  unfold spells
  induction lower generalizing text with
  | nil => cases text <;> simp
  | cons l lower ih =>
    have ⟨hl, hlower⟩ := List.forall_mem_cons.mp h
    cases text with
    | nil => simp
    | cons c text =>
      rw [List.forall₂_cons, ← ih hlower, ← sameLetter_iff hl]
      simp [and_left_comm]

theorem not_isUpper_of_mem_knownExtensions :
    ∀ ext ∈ knownExtensions, ∀ c ∈ ext, c.isUpper = false := by
  simp [knownExtensions]

theorem isExtension_iff {ext : List Char} :
    IsExtension ext ↔ ∃ known ∈ knownExtensions, spells known ext = true := by
  have hall : knownExtensions = [".json", ".csv", ".sql"].map String.toList := rfl
  unfold IsExtension
  constructor
  · rintro ⟨known, hknown, hspelled⟩
    have hmem : known.toList ∈ knownExtensions := hall ▸ List.mem_map_of_mem hknown
    exact ⟨_, hmem, (spells_iff (not_isUpper_of_mem_knownExtensions _ hmem)).mpr hspelled⟩
  · rintro ⟨_, hmem, hspelled⟩
    rw [spells_iff (not_isUpper_of_mem_knownExtensions _ hmem)] at hspelled
    obtain ⟨known, hknown, rfl⟩ := List.mem_map.mp (hall ▸ hmem)
    exact ⟨known, hknown, hspelled⟩

theorem IsLetter.eq_dot_iff {lower c : Char} (h : IsLetter lower c) : c = '.' ↔ lower = '.' := by
  rcases h with rfl | rfl | ⟨rfl, rfl⟩
  · rfl
  · by_cases hlower : lower.isLower
    · have hupper : lower.toUpper.isUpper = true := by
        rw [Char.isUpper_toUpper_eq_isAlpha, Char.isAlpha, hlower, Bool.or_true]
      constructor
      · intro hdot
        rw [hdot] at hupper
        contradiction
      · rintro rfl
        contradiction
    · rw [Char.toUpper_eq_of_not_isLower hlower]
  · decide

theorem dot_mem_iff {lowers letters : List Char} (h : List.Forall₂ IsLetter lowers letters) :
    '.' ∈ letters ↔ '.' ∈ lowers := by
  induction h with
  | nil => rfl
  | cons hletter _ ih => rw [List.mem_cons, List.mem_cons, ih, eq_comm, hletter.eq_dot_iff, eq_comm]

/-- An extension has a dot in front and none behind. -/
theorem IsExtension.exists_letters {ext : List Char} (h : IsExtension ext) :
    ∃ letters, ext = '.' :: letters ∧ '.' ∉ letters := by
  obtain ⟨known, hknown, hspelled⟩ := h
  have hdot : ∃ lowers, known.toList = '.' :: lowers ∧ '.' ∉ lowers := by
    rw [List.mem_cons, List.mem_cons, List.mem_singleton] at hknown
    rcases hknown with rfl | rfl | rfl <;> simp
  obtain ⟨lowers, hlowers, hnot⟩ := hdot
  rw [hlowers, List.forall₂_cons_left_iff] at hspelled
  obtain ⟨c, letters, hc, hrest, rfl⟩ := hspelled
  exact ⟨letters, by rw [hc.eq_dot_iff.mpr rfl], mt (dot_mem_iff hrest).mp hnot⟩

/-- A name ends in at most one extension. -/
theorem IsExtension.append_inj {stem other ext ext' : List Char} (h : IsExtension ext)
    (h' : IsExtension ext') (heq : stem ++ ext = other ++ ext') : stem = other ∧ ext = ext' := by
  obtain ⟨letters, rfl, hdot⟩ := h.exists_letters
  obtain ⟨letters', rfl, hdot'⟩ := h'.exists_letters
  have hsame : letters.reverse = letters'.reverse := by
    rw [← takeWhile_reverse_append hdot stem, heq, takeWhile_reverse_append hdot' other]
  obtain rfl := List.reverse_inj.mp hsame
  exact ⟨List.append_cancel_right heq, rfl⟩

theorem spells_length {lower text : List Char} (h : spells lower text = true) :
    lower.length = text.length := by
  unfold spells at h
  rw [Bool.and_eq_true] at h
  exact beq_iff_eq.mp h.1

theorem isStem_withoutExtension (name : List Char) : IsStem name (withoutExtension name) := by
  unfold withoutExtension
  split
  next known hfind =>
    left
    have hspelled := List.find?_some hfind
    refine ⟨_, isExtension_iff.mpr ⟨known, List.mem_of_find?_eq_some hfind, hspelled⟩, ?_⟩
    exact (List.take_append_drop _ _).symm
  next hnone =>
    right
    refine ⟨?_, rfl⟩
    rintro ⟨before, ext, hext, rfl⟩
    obtain ⟨known, hknown, hspelled⟩ := isExtension_iff.mp hext
    have hlen := spells_length hspelled
    apply List.find?_eq_none.mp hnone known hknown
    rw [List.length_append, hlen, Nat.add_sub_cancel, List.drop_left]
    exact hspelled

theorem IsStem.eq {name stem : List Char} (h : IsStem name stem) :
    withoutExtension name = stem := by
  rcases isStem_withoutExtension name with ⟨ext, hext, hname⟩ | ⟨hnone, hwhole⟩
  · rcases h with ⟨ext', hext', hname'⟩ | ⟨hnone', _⟩
    · exact (hext.append_inj hext' (hname.symm.trans hname')).1
    · exact absurd ⟨_, ext, hext, hname⟩ hnone'
  · rcases h with ⟨ext', hext', hname'⟩ | ⟨_, rfl⟩
    · exact absurd ⟨stem, ext', hext', hname'⟩ hnone
    · exact hwhole

/-! The runs. -/

theorem Runs.cons {cs : List Char} {runs : List (List Char)} (h : Runs cs runs) {c : Char}
    (hc : isLetterOrDigit c = false) : Runs (c :: cs) runs := by
  cases h with
  | none hgap => exact .none (List.forall_mem_cons.mpr ⟨hc, hgap⟩)
  | run hgap hne hrun hend h =>
    rw [← List.cons_append]
    exact .run (List.forall_mem_cons.mpr ⟨hc, hgap⟩) hne hrun hend h

theorem breaks_dropWhile (cs : List Char) : Breaks (cs.dropWhile isLetterOrDigit) := by
  intro c hc
  have := List.head?_dropWhile_not isLetterOrDigit cs
  rw [Option.mem_def.mp hc] at this
  simpa using this

theorem runs_alnumRuns (cs : List Char) : Runs cs (alnumRuns cs) := by
  fun_induction alnumRuns cs with
  | case1 => exact .none (by simp)
  | case2 c cs hc ih =>
    have hrun : ∀ d ∈ c :: cs.takeWhile isLetterOrDigit, isLetterOrDigit d = true :=
      List.forall_mem_cons.mpr ⟨hc, fun d hd => List.mem_takeWhile_imp hd⟩
    have hsplit : c :: cs =
        [] ++ (c :: cs.takeWhile isLetterOrDigit ++ cs.dropWhile isLetterOrDigit) := by
      simp
    rw [hsplit]
    exact .run (by simp) (by simp) hrun (breaks_dropWhile cs) ih
  | case3 c cs hc ih => exact ih.cons (by simpa using hc)

theorem alnumRuns_append_gap {gap : List Char} (h : ∀ c ∈ gap, isLetterOrDigit c = false)
    (cs : List Char) : alnumRuns (gap ++ cs) = alnumRuns cs := by
  induction gap with
  | nil => rfl
  | cons c gap ih =>
    have ⟨hc, hgap⟩ := List.forall_mem_cons.mp h
    rw [List.cons_append, alnumRuns, if_neg (by simp [hc]), ih hgap]

theorem alnumRuns_append_run {run rest : List Char} (hne : run ≠ [])
    (h : ∀ c ∈ run, isLetterOrDigit c = true) (hend : Breaks rest) :
    alnumRuns (run ++ rest) = run :: alnumRuns rest := by
  cases run with
  | nil => contradiction
  | cons c run =>
    have ⟨hc, hrun⟩ := List.forall_mem_cons.mp h
    have hrest : rest.takeWhile isLetterOrDigit = [] ∧ rest.dropWhile isLetterOrDigit = rest := by
      cases rest with
      | nil => exact ⟨rfl, rfl⟩
      | cons d rest =>
        have hd : isLetterOrDigit d = false := hend d rfl
        simp [hd]
    rw [List.cons_append, alnumRuns, if_pos hc, List.takeWhile_append_of_pos hrun,
      List.dropWhile_append_of_pos hrun, hrest.1, hrest.2, List.append_nil]

theorem Runs.eq {cs : List Char} {runs : List (List Char)} (h : Runs cs runs) :
    alnumRuns cs = runs := by
  induction h with
  | none hgap =>
    have := alnumRuns_append_gap hgap []
    rwa [List.append_nil, alnumRuns] at this
  | run hgap hne hrun hend _ ih =>
    rw [alnumRuns_append_gap hgap, alnumRuns_append_run hne hrun hend, ih]

/-! What the passes over a stem make of its runs. -/

theorem underscored_cons_run {c : Char} (hc : isLetterOrDigit c = true) (cs : List Char) :
    underscored (c :: cs) = c :: underscored cs := by
  cases cs <;> simp [underscored, hc]

theorem underscored_append_run {run : List Char} (h : ∀ c ∈ run, isLetterOrDigit c = true)
    (rest : List Char) : underscored (run ++ rest) = run ++ underscored rest := by
  induction run with
  | nil => rfl
  | cons c run ih =>
    have ⟨hc, hrun⟩ := List.forall_mem_cons.mp h
    rw [List.cons_append, underscored_cons_run hc, ih hrun, List.cons_append]

/-- The underscore that a text opens with once its gaps are underscores. -/
def opening : List Char → List Char
  | [] => []
  | c :: _ => if isLetterOrDigit c then [] else ['_']

theorem exists_opening_eq (cs : List Char) : ∃ n, opening cs = List.replicate n '_' := by
  cases cs with
  | nil => exact ⟨0, rfl⟩
  | cons c cs =>
    by_cases hc : isLetterOrDigit c = true
    · exact ⟨0, by simp [opening, hc]⟩
    · exact ⟨1, by simp [opening, hc]⟩

/-- A gap before a run, or at the end, is one underscore. -/
theorem underscored_append_gap {gap : List Char} (h : ∀ c ∈ gap, isLetterOrDigit c = false)
    {rest : List Char} (hrest : ∀ c ∈ rest.head?, isLetterOrDigit c = true) :
    underscored (gap ++ rest) = opening gap ++ underscored rest := by
  induction gap with
  | nil => rfl
  | cons c gap ih =>
    have ⟨hc, hgap⟩ := List.forall_mem_cons.mp h
    have ih := ih hgap
    cases gap with
    | nil =>
      cases rest with
      | nil => simp [underscored, opening, hc]
      | cons d rest =>
        have hd : isLetterOrDigit d = true := hrest d rfl
        simp [underscored, opening, hc, hd]
    | cons d gap =>
      have hd := hgap d List.mem_cons_self
      have hopening : opening (c :: d :: gap) = opening (d :: gap) := by simp [opening, hc, hd]
      have hfirst : underscored (c :: d :: gap ++ rest) = underscored (d :: gap ++ rest) := by
        simp [underscored, hc, hd]
      rw [hfirst, ih, hopening]

/-- Before the ends are trimmed, there are the runs with one underscore between each two, and at
most underscores around them. -/
theorem Runs.underscored_eq {cs : List Char} {runs : List (List Char)} (h : Runs cs runs) :
    ∃ n, underscored cs = opening cs ++ joined ['_'] runs ++ List.replicate n '_' := by
  induction h with
  | @none gap hgap =>
    have hwhole : underscored (gap ++ []) = opening gap ++ underscored [] :=
      underscored_append_gap hgap (by simp)
    rw [List.append_nil, underscored, List.append_nil] at hwhole
    exact ⟨0, by rw [hwhole]; simp [joined]⟩
  | @run gap run rest runs hgap hne hrun hend h ih =>
    obtain ⟨n, hn⟩ := ih
    obtain ⟨d, more, hd⟩ := List.exists_cons_of_ne_nil hne
    have hletter : isLetterOrDigit d = true := hrun d (hd ▸ List.mem_cons_self)
    have hhead : ∀ c ∈ (run ++ rest).head?, isLetterOrDigit c = true := by
      intro c hc
      rw [hd, List.cons_append, List.head?_cons, Option.mem_some_iff] at hc
      exact hc ▸ hletter
    have hopening : opening (gap ++ (run ++ rest)) = opening gap := by
      cases gap with
      | nil =>
        rw [List.nil_append, hd]
        exact if_pos hletter
      | cons => rfl
    rw [underscored_append_gap hgap hhead, underscored_append_run hrun, hn, hopening]
    cases hruns : runs with
    | nil =>
      -- Behind the last run there is a gap at most.
      obtain ⟨k, hk⟩ := exists_opening_eq rest
      refine ⟨k + n, ?_⟩
      simp [joined, hk]
    | cons next more =>
      refine ⟨n, ?_⟩
      -- The run ends before the next one, so there is a gap between them.
      have hrest : opening rest = ['_'] := by
        cases rest with
        | nil => simpa [alnumRuns, hruns] using h.eq
        | cons c rest =>
          have hc : isLetterOrDigit c = false := hend c rfl
          simp [opening, hc]
      have hmore : next :: more ≠ [] := List.cons_ne_nil next more
      rw [hrest, joined_cons_of_ne_nil _ _ hmore]
      simp only [List.append_assoc]

theorem trimUnderscores_eq {body : List Char} (hhead : body.head? ≠ some '_')
    (hlast : body.getLast? ≠ some '_') (m n : Nat) :
    trimUnderscores (List.replicate m '_' ++ body ++ List.replicate n '_') = body := by
  have hall (k : Nat) : ∀ c ∈ List.replicate k '_', (c == '_') = true := by
    intro c hc
    rw [List.eq_of_mem_replicate hc]
    rfl
  have hstop {cs : List Char} (h : cs.head? ≠ some '_') : cs.dropWhile (· == '_') = cs := by
    cases cs with
    | nil => rfl
    | cons c cs =>
      apply List.dropWhile_cons_of_neg
      simpa using h
  unfold trimUnderscores
  cases body with
  | nil =>
    rw [List.append_nil, List.replicate_append_replicate, List.dropWhile_eq_nil_iff.mpr (hall _)]
    rfl
  | cons c cs =>
    have hopen : (c :: cs ++ List.replicate n '_').head? ≠ some '_' := hhead
    rw [List.append_assoc, List.dropWhile_append_of_pos (hall m), hstop hopen, List.reverse_append,
      List.reverse_replicate, List.dropWhile_append_of_pos (hall n), hstop, List.reverse_reverse]
    rwa [List.head?_reverse]

/-! Tokens. -/

theorem isUpper_or_isDigit_toUpper {c : Char} (h : isLetterOrDigit c = true) :
    c.toUpper.isUpper = true ∨ c.toUpper.isDigit = true := by
  unfold isLetterOrDigit Char.isAlphanum at h
  rw [Bool.or_eq_true, ← Char.isUpper_toUpper_eq_isAlpha] at h
  by_cases hlower : c.isLower = true
  · left
    rw [Char.isUpper_toUpper_eq_isAlpha, Char.isAlpha, hlower, Bool.or_true]
  · rwa [Char.toUpper_eq_of_not_isLower hlower] at h ⊢

/-- A capital word. -/
def IsWord (cs : List Char) : Prop :=
  cs ≠ [] ∧ ∀ c ∈ cs, c.isUpper = true ∨ c.isDigit = true

theorem IsWord.ne_nil_and {cs : List Char} (h : IsWord cs) : cs ≠ [] ∧ '_' ∉ cs := by
  refine ⟨h.1, ?_⟩
  intro hmem
  have := h.2 _ hmem
  revert this
  decide

theorem Runs.mem {cs : List Char} {runs : List (List Char)} (h : Runs cs runs) :
    ∀ run ∈ runs, run ≠ [] ∧ ∀ c ∈ run, isLetterOrDigit c = true := by
  induction h with
  | none => simp
  | run _ hne hrun _ _ ih => exact List.forall_mem_cons.mpr ⟨⟨hne, hrun⟩, ih⟩

theorem Runs.isWord {cs : List Char} {runs : List (List Char)} (h : Runs cs runs) :
    ∀ word ∈ runs.map (List.map Char.toUpper), IsWord word := by
  intro word hword
  obtain ⟨run, hmem, rfl⟩ := List.mem_map.mp hword
  have ⟨hne, hrun⟩ := h.mem run hmem
  constructor
  · simpa using hne
  · intro c hc
    obtain ⟨d, hd, rfl⟩ := List.mem_map.mp hc
    exact isUpper_or_isDigit_toUpper (hrun d hd)

section

variable {words : List (List Char)} (h : ∀ word ∈ words, IsWord word)

include h

/-- Each underscore of a token has a word before it and one behind it. -/
theorem underscore_alone {before after : List Char}
    (hsplit : joined ['_'] words = before ++ '_' :: after) :
    before ≠ [] ∧ after ≠ [] ∧ after.head? ≠ some '_' := by
  have hne : words ≠ [] := by
    rintro rfl
    simp [joined] at hsplit
  have hvoid : [] ∉ pieces '_' before ++ pieces '_' after := by
    rw [← pieces_append_cons, ← hsplit,
      pieces_joined (fun word hword => (h word hword).ne_nil_and.2) hne]
    exact fun hmem => (h [] hmem).1 rfl
  rw [List.mem_append, not_or] at hvoid
  refine ⟨?_, ?_, ?_⟩
  · rintro rfl
    exact hvoid.1 (by simp [pieces])
  · rintro rfl
    exact hvoid.2 (by simp [pieces])
  · intro hhead
    obtain ⟨rest, rfl⟩ := List.head?_eq_some_iff.mp hhead
    exact hvoid.2 (by simp [pieces])

theorem isToken_joined : IsToken (joined ['_'] words) := by
  constructor
  · intro c hc
    rcases mem_joined hc with hsep | ⟨word, hword, hmem⟩
    · right; right
      exact List.mem_singleton.mp hsep
    · rw [← or_assoc]
      exact .inl ((h word hword).2 c hmem)
  · intro hhead
    obtain ⟨rest, hrest⟩ := List.head?_eq_some_iff.mp hhead
    have halone : ([] : List Char) ≠ [] ∧ _ := underscore_alone h hrest
    exact halone.1 rfl
  · intro hlast
    obtain ⟨init, hinit⟩ := List.getLast?_eq_some_iff.mp hlast
    exact (underscore_alone h hinit).2.1 rfl
  · rintro ⟨before, after, hinfix⟩
    rw [List.append_assoc] at hinfix
    exact (underscore_alone h hinfix.symm).2.2 rfl

end

theorem map_joined (f : Char → Char) (sep : List Char) (ps : List (List Char)) :
    (joined sep ps).map f = joined (sep.map f) (ps.map (List.map f)) := by
  induction ps with
  | nil => rfl
  | cons p ps ih =>
    by_cases hne : ps = []
    · simp [hne, joined]
    · have hmap : ps.map (List.map f) ≠ [] := by simpa using hne
      rw [joined_cons_of_ne_nil sep p hne, List.map_cons, joined_cons_of_ne_nil _ _ hmap, ← ih,
        List.map_append, List.map_append]

/-- The token of a path is its words with one underscore between each two. -/
theorem HasWords.token_eq {path : String} {words : List (List Char)} (h : HasWords path words) :
    token path = joined ['_'] words := by
  obtain ⟨name, stem, runs, hname, hstem, hruns, rfl⟩ := h
  have htoken := isToken_joined hruns.isWord
  obtain ⟨m, hm⟩ := exists_opening_eq stem
  obtain ⟨n, hn⟩ := hruns.underscored_eq
  unfold token
  rw [hname.eq, hstem.eq, hn, hm, List.map_append, List.map_append, List.map_replicate,
    List.map_replicate, map_joined]
  exact trimUnderscores_eq htoken.head htoken.last m n

theorem exists_hasWords (path : String) : ∃ words, HasWords path words :=
  ⟨_, _, _, _, isLastSegment_lastSegment _, isStem_withoutExtension _, runs_alnumRuns _, rfl⟩

theorem HasWords.isWord {path : String} {words : List (List Char)} (h : HasWords path words) :
    ∀ word ∈ words, IsWord word := by
  obtain ⟨_, _, _, _, _, hruns, rfl⟩ := h
  exact hruns.isWord

theorem HasWords.unique {path : String} {words others : List (List Char)} (h : HasWords path words)
    (h' : HasWords path others) : words = others := by
  obtain ⟨_, _, _, hname, hstem, hruns, rfl⟩ := h
  obtain ⟨_, _, _, hname', hstem', hruns', rfl⟩ := h'
  obtain rfl := hname.eq.symm.trans hname'.eq
  obtain rfl := hstem.eq.symm.trans hstem'.eq
  obtain rfl := hruns.eq.symm.trans hruns'.eq
  rfl

/-- An id tells its domain and its token apart. -/
theorem contentId_eq_iff {d e : Domain} {path other : String} :
    contentId d path = contentId e other ↔ d = e ∧ token path = token other := by
  constructor
  · intro h
    have hchars :
        d.idPrefix.toList ++ '_' :: token path = e.idPrefix.toList ++ '_' :: token other := by
      simpa [contentId] using congrArg String.toList h
    cases d <;> cases e <;> simp_all [Domain.idPrefix]
  · rintro ⟨rfl, htoken⟩
    rw [contentId, contentId, htoken]

/-- What the content ids of a path are. -/
structure SaysWords (path : String) (words : List (List Char)) : Prop where
  hasWords : HasWords path words
  unique : ∀ others, HasWords path others → others = words
  token : IsToken (joined ['_'] words)
  id : ∀ d, contentId d path = d.idPrefix ++ "_" ++ String.ofList (joined ['_'] words)
  shared : ∀ d e other others, HasWords other others →
    (contentId d path = contentId e other ↔ d = e ∧ words = others)

/-- A content id is its domain and the words of the file's name, which it can be told from. -/
theorem exists_saysWords (path : String) : ∃ words, SaysWords path words := by
  obtain ⟨words, h⟩ := exists_hasWords path
  refine ⟨words, h, fun others h' => h'.unique h, isToken_joined h.isWord, ?_, ?_⟩
  · intro d
    rw [contentId, h.token_eq]
  · intro d e other others h'
    rw [contentId_eq_iff, h.token_eq, h'.token_eq]
    apply and_congr_right
    intro _
    constructor
    · exact joined_inj (fun word hword => (h.isWord word hword).ne_nil_and)
        fun word hword => (h'.isWord word hword).ne_nil_and
    · rintro rfl
      rfl

example : contentId .tax "rates/__fica--limits__.cſv" = "TAX_FICA_LIMITS" := by
  cbv

/-! The shape of ids. -/

/-- Capitals, an underscore, and then capitals, digits and underscores: `^[A-Z]+_[A-Z0-9_]*$`. -/
def IsId (cs : List Char) : Prop :=
  ∃ letters rest, letters ≠ [] ∧ (∀ c ∈ letters, c.isUpper = true) ∧
    (∀ c ∈ rest, c.isUpper = true ∨ c.isDigit = true ∨ c = '_') ∧ cs = letters ++ '_' :: rest

theorem toList_contentId (d : Domain) (path : String) :
    (contentId d path).toList = d.idPrefix.toList ++ '_' :: token path := by
  simp [contentId]

theorem isToken_token (path : String) : IsToken (token path) := by
  obtain ⟨words, h⟩ := exists_hasWords path
  exact h.token_eq ▸ isToken_joined h.isWord

theorem isId_contentId (d : Domain) (path : String) : IsId (contentId d path).toList := by
  refine ⟨d.idPrefix.toList, token path, ?_, ?_, (isToken_token path).chars,
    toList_contentId d path⟩
  · cases d <;> decide
  · cases d <;> simp [Domain.idPrefix, Char.isUpper]

theorem Runs.eq_nil_iff {cs : List Char} {runs : List (List Char)} (h : Runs cs runs) :
    runs = [] ↔ ∀ c ∈ cs, isLetterOrDigit c = false := by
  constructor
  · rintro rfl
    cases h
    assumption
  · intro hgap
    have hnone := alnumRuns_append_gap hgap []
    rw [List.append_nil, h.eq] at hnone
    rw [hnone, alnumRuns]

/-- A path has a void token where its stem has no letter and no digit. -/
theorem token_eq_nil_iff {path : String} {name stem : List Char}
    (hname : IsLastSegment path.toList name) (hstem : IsStem name stem) :
    token path = [] ↔ ∀ c ∈ stem, isLetterOrDigit c = false := by
  have hruns := runs_alnumRuns stem
  have hwords : HasWords path _ := ⟨name, stem, _, hname, hstem, hruns, rfl⟩
  rw [← hruns.eq_nil_iff, hwords.token_eq]
  constructor
  · intro hvoid
    cases hlist : alnumRuns stem with
    | nil => rfl
    | cons run runs =>
      rw [hlist] at hwords hvoid
      have hword := hwords.isWord _ List.mem_cons_self
      by_cases hmore : runs = []
      · rw [hmore] at hvoid
        exact absurd hvoid hword.1
      · rw [List.map_cons, joined_cons_of_ne_nil _ _ (by simpa using hmore)] at hvoid
        simp at hvoid
  · intro hnone
    rw [hnone]
    rfl

theorem getLast?_contentId_eq_underscore_iff (d : Domain) (path : String) :
    (contentId d path).toList.getLast? = some '_' ↔ token path = [] := by
  rw [toList_contentId]
  cases htoken : token path with
  | nil => simp
  | cons c cs =>
    have hlast := (isToken_token path).last
    rw [htoken] at hlast
    simpa [List.getLast?_append] using hlast

/-- Ids are of one shape. An id ends in its underscore where there is nothing behind it, and that is
so where the name, without a known extension, has no letter and no digit. -/
theorem contentId_shape (d : Domain) (path : String) : IsId (contentId d path).toList ∧
    ∃ name stem, IsLastSegment path.toList name ∧ IsStem name stem ∧
      (token path = [] ↔ ∀ c ∈ stem, isLetterOrDigit c = false) ∧
      ((contentId d path).toList.getLast? = some '_' ↔ token path = []) ∧
      (contentId d path).toList = d.idPrefix.toList ++ '_' :: token path := by
  have hname := isLastSegment_lastSegment path.toList
  have hstem := isStem_withoutExtension (lastSegment path.toList)
  exact ⟨isId_contentId d path, _, _, hname, hstem, token_eq_nil_iff hname hstem,
    getLast?_contentId_eq_underscore_iff d path, toList_contentId d path⟩

/-- A name of dashes alone and one that is no more than an extension leave nothing for an id to
say. -/
theorem not_token_ne_nil_dashes : '/' ∉ "---".toList ∧ contentId .tax "---" = "TAX_" ∧
    token "---" = [] ∧ contentId .tax ".json" = "TAX_" := by
  refine ⟨by decide, by cbv, by cbv, by cbv⟩

end Sidecar.Identity
