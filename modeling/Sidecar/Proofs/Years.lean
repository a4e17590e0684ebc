import Mathlib
import Sidecar.Record.Basic
import Sidecar.Proofs.Digits

/-! The year that a name tells. It is the leftmost stretch of four characters that writes a year
from 1900 to 2099, inside a longer number as well. From that year on, with no end, a record covers
its file; without a year it says nothing of when. -/

namespace Sidecar.Identity

open Digits

/-- Four characters that write a year from 1900 to 2099. -/
def IsYear (w : List Char) : Prop :=
  ∃ c d, (c.isDigit = true ∧ d.isDigit = true) ∧ (w = ['1', '9', c, d] ∨ w = ['2', '0', c, d])

/-- The four characters from a place on, or fewer at the end of the text. -/
def window (cs : List Char) (i : Nat) : List Char :=
  (cs.drop i).take 4

/-- The first place in a text from which on there is a year. -/
structure IsFirstYear (cs : List Char) (i : Nat) : Prop where
  year : IsYear (window cs i)
  first : ∀ j < i, ¬IsYear (window cs j)

/-! Years. -/

section Year

variable {a b c d : Char} {w cs : List Char} {i y : Nat}

theorem isYear_iff : IsYear [a, b, c, d] ↔
    (a = '1' ∧ b = '9' ∨ a = '2' ∧ b = '0') ∧ c.isDigit = true ∧ d.isDigit = true := by
  constructor
  · rintro ⟨_, _, hdigits, h | h⟩
    · cases h
      exact ⟨.inl ⟨rfl, rfl⟩, hdigits⟩
    · cases h
      exact ⟨.inr ⟨rfl, rfl⟩, hdigits⟩
  · rintro ⟨⟨rfl, rfl⟩ | ⟨rfl, rfl⟩, hdigits⟩
    · exact ⟨c, d, hdigits, .inl rfl⟩
    · exact ⟨c, d, hdigits, .inr rfl⟩

theorem IsYear.length (h : IsYear w) : w.length = 4 := by
  obtain ⟨_, _, _, rfl | rfl⟩ := h <;> rfl

theorem IsYear.areDigits (h : IsYear w) : AreDigits w := by
  obtain ⟨c, d, ⟨hc, hd⟩, rfl | rfl⟩ := h <;> simp [AreDigits, hc, hd]

theorem IsYear.exists_cons (h : IsYear w) : ∃ c ds, w = c :: ds ∧ (c = '1' ∨ c = '2') := by
  obtain ⟨c, d, _, rfl | rfl⟩ := h
  · exact ⟨_, _, rfl, .inl rfl⟩
  · exact ⟨_, _, rfl, .inr rfl⟩

theorem IsYear.bounds (h : IsYear w) : 1900 ≤ value w ∧ value w ≤ 2099 := by
  obtain ⟨c, d, ⟨hc, hd⟩, rfl | rfl⟩ := h
  all_goals
    have hlt : value [c, d] < 10 ^ [c, d].length := value_lt (by simp [AreDigits, hc, hd])
    rw [value_cons, value_cons]
    simp only [List.length_cons, List.length_nil] at hlt ⊢
    have hdigits : '0'.toNat = 48 ∧ '1'.toNat = 49 ∧ '2'.toNat = 50 ∧ '9'.toNat = 57 := by decide
    omega

theorem yearOf?_eq : yearOf? a b c d =
    if (a = '1' ∧ b = '9' ∨ a = '2' ∧ b = '0') ∧ c.isDigit = true ∧ d.isDigit = true then
      some (value [a, b, c, d]) else none := by
  have hvalue : value [a, b, c, d] =
      1000 * digitValue a + 100 * digitValue b + 10 * digitValue c + digitValue d := by
    have hnil : value [] = 0 := rfl
    simp only [value_cons, hnil, digitValue, List.length_cons, List.length_nil]
    omega
  rw [yearOf?, hvalue]

theorem yearOf?_eq_some_iff :
    yearOf? a b c d = some y ↔ IsYear [a, b, c, d] ∧ value [a, b, c, d] = y := by
  rw [yearOf?_eq, isYear_iff, Option.ite_none_right_eq_some, Option.some.injEq]

theorem yearOf?_eq_none_iff : yearOf? a b c d = none ↔ ¬IsYear [a, b, c, d] := by
  rw [yearOf?_eq, isYear_iff, ite_eq_right_iff]
  simp only [reduceCtorEq, imp_false]

theorem not_isYear_of_length (h : w.length < 4) : ¬IsYear w := by
  intro hyear
  have := hyear.length
  omega

theorem isFirstYear_zero_iff : IsFirstYear cs 0 ↔ IsYear (window cs 0) :=
  ⟨IsFirstYear.year, fun h => ⟨h, fun _ hj => absurd hj (Nat.not_lt_zero _)⟩⟩

theorem isFirstYear_succ_iff :
    IsFirstYear (c :: cs) (i + 1) ↔ ¬IsYear (window (c :: cs) 0) ∧ IsFirstYear cs i := by
  constructor
  · intro h
    refine ⟨h.first 0 (Nat.succ_pos i), h.year, ?_⟩
    exact fun j hj => h.first (j + 1) (Nat.succ_lt_succ hj)
  · rintro ⟨hfront, h⟩
    refine ⟨h.year, fun j hj => ?_⟩
    cases j with
    | zero => exact hfront
    | succ j => exact h.first j (Nat.lt_of_succ_lt_succ hj)

theorem firstYear?_eq_some_iff :
    firstYear? cs = some y ↔ ∃ i, IsFirstYear cs i ∧ y = value (window cs i) := by
  fun_induction firstYear? cs with
  | case1 a b c d rest z hz =>
    have ⟨hyear, hvalue⟩ := yearOf?_eq_some_iff.mp hz
    have hfront : IsYear (window (a :: b :: c :: d :: rest) 0) := hyear
    constructor
    · intro hy
      exact ⟨0, isFirstYear_zero_iff.mpr hfront, (hvalue.trans (Option.some.inj hy)).symm⟩
    · rintro ⟨i, hi, rfl⟩
      cases i with
      | zero => exact congrArg some hvalue.symm
      | succ i => exact absurd hfront (isFirstYear_succ_iff.mp hi).1
  | case2 a b c d rest hz ih =>
    have hfront : ¬IsYear (window (a :: b :: c :: d :: rest) 0) := yearOf?_eq_none_iff.mp hz
    rw [ih]
    constructor
    · rintro ⟨i, hi, rfl⟩
      exact ⟨i + 1, isFirstYear_succ_iff.mpr ⟨hfront, hi⟩, rfl⟩
    · rintro ⟨i, hi, rfl⟩
      cases i with
      | zero => exact absurd hi.year hfront
      | succ i => exact ⟨i, (isFirstYear_succ_iff.mp hi).2, rfl⟩
  | case3 cs hshort =>
    -- The scan ends with fewer than four characters, too few for a year at any place.
    have hlen : cs.length < 4 := by
      rcases cs with _ | ⟨a, _ | ⟨b, _ | ⟨c, _ | ⟨d, rest⟩⟩⟩⟩
      all_goals first | exact absurd rfl (hshort a b c d rest) | simp
    constructor
    · intro h
      contradiction
    · rintro ⟨i, hi, _⟩
      refine absurd hi.year (not_isYear_of_length ?_)
      simp only [window, List.length_take, List.length_drop]
      omega

theorem exists_isFirstYear (h : IsYear (window cs i)) : ∃ j, IsFirstYear cs j := by
  classical
  have hexists : ∃ i, IsYear (window cs i) := ⟨i, h⟩
  exact ⟨Nat.find hexists, Nat.find_spec hexists, fun _ => Nat.find_min hexists⟩

theorem firstYear?_eq_none_iff : firstYear? cs = none ↔ ∀ i, ¬IsYear (window cs i) := by
  rw [Option.eq_none_iff_forall_not_mem]
  constructor
  · intro h i hi
    have ⟨j, hj⟩ := exists_isFirstYear hi
    exact h _ (firstYear?_eq_some_iff.mpr ⟨j, hj, rfl⟩)
  · intro h y hy
    have ⟨i, hi, _⟩ := firstYear?_eq_some_iff.mp hy
    exact h i hi.year

end Year

/-! Years of stems, and what they cover. -/

section Coverage

variable {stem : String} {y : Int32} {w : List Char}

theorem IsYear.toInt_ofNat (h : IsYear w) : (Int32.ofNat (value w)).toInt = value w := by
  have ⟨_, hle⟩ := h.bounds
  exact Int32.toInt_ofNat_of_lt (by omega)

theorem inferYear_eq_none_iff : inferYear stem = none ↔ ∀ i, ¬IsYear (window stem.toList i) := by
  rw [inferYear, Option.map_eq_none_iff, firstYear?_eq_none_iff]

theorem inferYear_eq_some_iff : inferYear stem = some y ↔
    ∃ i, IsFirstYear stem.toList i ∧ y.toInt = value (window stem.toList i) := by
  simp only [inferYear, Option.map_eq_some_iff, firstYear?_eq_some_iff]
  constructor
  · rintro ⟨_, ⟨i, hi, rfl⟩, rfl⟩
    exact ⟨i, hi, hi.year.toInt_ofNat⟩
  · rintro ⟨i, hi, hy⟩
    refine ⟨_, ⟨i, hi, rfl⟩, ?_⟩
    rw [← Int32.toInt_inj, hi.year.toInt_ofNat, hy]

/-- A year is written as it stands in the name. -/
theorem IsYear.toString_eq (h : IsYear w) : toString ((value w : Nat) : Int) = String.ofList w := by
  obtain ⟨c, ds, rfl, hc⟩ := h.exists_cons
  have hzero : c ≠ '0' := by rcases hc with rfl | rfl <;> decide
  calc toString ((value (c :: ds) : Nat) : Int)
      = toString (value (c :: ds)) := rfl
    _ = String.ofList (c :: ds) := by
      rw [Nat.toString_eq_ofList_toDigits, toDigits_value h.areDigits hzero]

/-- The first day of a year. -/
def firstDay (w : List Char) : String :=
  String.ofList w ++ "-01-01"

theorem IsYear.length_firstDay (h : IsYear w) : (firstDay w).length = 10 := by
  rw [firstDay, String.length_append, String.length_ofList, h.length]
  rfl

theorem IsYear.firstDay_lt (h : IsYear w) : firstDay w < "9999-12-31" := by
  obtain ⟨c, ds, rfl, hc⟩ := h.exists_cons
  have hlt : c < '9' := by rcases hc with rfl | rfl <;> decide
  rw [String.lt_iff_toList_lt, firstDay, String.toList_append, String.toList_ofList]
  exact List.Lex.rel hlt

/-- What a record says of when a file with a given stem applies: nothing without a year, and else
from the first day of that year on, which comes before the day that stands for no end. -/
inductive Covers (stem : String) (c : Coverage) : Prop where
  | nothing (hstem : inferYear stem = none) (hyear : c.year = none)
      (hfrom : c.effectiveFrom = none) (hto : c.effectiveTo = none)
  | since {y : Int32} {w : List Char} (hstem : inferYear stem = some y) (hyear : c.year = some y)
      (hw : AreDigits w ∧ w.length = 4 ∧ y.toInt = value w)
      (hfrom : c.effectiveFrom = some (firstDay w)) (hto : c.effectiveTo = some "9999-12-31")
      (hlen : (firstDay w).length = 10) (hlt : firstDay w < "9999-12-31")

theorem covers_assemble (ctx : RecordContext) (path : Path) (relPath digest : String) :
    Covers path.stem (Record.assemble ctx path relPath digest).coverage := by
  cases hstem : inferYear path.stem with
  | none =>
    refine .nothing hstem hstem ?_ ?_
    · simp only [Record.assemble, hstem, effectiveFrom, Option.map_none]
    · simp only [Record.assemble, hstem, effectiveTo, Option.map_none]
  | some y =>
    have ⟨i, hi, hy⟩ := inferYear_eq_some_iff.mp hstem
    have hw := hi.year
    refine .since hstem hstem ⟨hw.areDigits, hw.length, hy⟩ ?_ ?_ hw.length_firstDay hw.firstDay_lt
    · simp only [Record.assemble, hstem, effectiveFrom, Option.map_some, hy, hw.toString_eq,
        firstDay]
    · simp only [Record.assemble, hstem, effectiveTo, Option.map_some, openEnd]

/-- The year of a text is its leftmost one, and a record covers its file from the year of the file's
stem on. -/
theorem inferYear_covers (s : String) (ctx : RecordContext) (path : Path)
    (relPath digest : String) :
    ((inferYear s = none ↔ ∀ i, ¬IsYear (window s.toList i)) ∧
      ∀ y, inferYear s = some y ↔ ∃ i, IsFirstYear s.toList i ∧
        y.toInt = value (window s.toList i) ∧ 1900 ≤ y.toInt ∧ y.toInt ≤ 2099) ∧
    Covers path.stem (Record.assemble ctx path relPath digest).coverage := by
  refine ⟨⟨inferYear_eq_none_iff, fun y => ?_⟩, covers_assemble ctx path relPath digest⟩
  rw [inferYear_eq_some_iff]
  apply exists_congr
  intro i
  apply and_congr_right
  intro hi
  have hbounds := hi.year.bounds
  omega

example : inferYear "x120245" = some 2024 ∧ inferYear "19201" = some 1920 := by
  decide

end Coverage

end Sidecar.Identity
