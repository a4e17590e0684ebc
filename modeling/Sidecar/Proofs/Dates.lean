import Mathlib
import Sidecar.Calendar
import Sidecar.Proofs.Digits

/-! The texts that are taken for a date. Reading is lenient, but what it reads has to be written in
the same way again, so the texts are those of the days in the calendar: `YYYY-MM-DD`, and besides a
year with a sign where four digits do not reach it. -/

namespace Sidecar.Calendar

open Digits

/-- A year of 366 days. -/
def IsLeap (y : Int) : Prop :=
  4 ∣ y ∧ (100 ∣ y → 400 ∣ y)

instance (y : Int) : Decidable (IsLeap y) :=
  inferInstanceAs (Decidable (_ ∧ _))

def monthLengths (y : Int) : List Nat :=
  [31, if IsLeap y then 29 else 28, 31, 30, 31, 30, 31, 31, 30, 31, 30, 31]

/-- A day of the Gregorian calendar, carried on to the years before it was in use. -/
def IsCalendarDay (y : Int) (m d : Nat) : Prop :=
  1 ≤ m ∧ 1 ≤ d ∧ ∃ length, (monthLengths y)[m - 1]? = some length ∧ d ≤ length

/-- Behind the text of a year, the month and the day in two digits each. -/
def WritesDay (cs year : List Char) (y : Int) : Prop :=
  ∃ mm dd, cs = year ++ '-' :: mm ++ '-' :: dd ∧ (AreDigits mm ∧ mm.length = 2) ∧
    (AreDigits dd ∧ dd.length = 2) ∧ IsCalendarDay y (value mm) (value dd)

/-- A day as `YYYY-MM-DD`. -/
def IsDate (cs : List Char) : Prop :=
  ∃ yyyy, (AreDigits yyyy ∧ yyyy.length = 4) ∧ WritesDay cs yyyy (value yyyy)

/-- At least `size` digits, with no zero in front where there are more. -/
structure IsPadded (size : Nat) (ds : List Char) : Prop where
  digits : AreDigits ds
  length : size ≤ ds.length
  leading : size < ds.length → ds.head? ≠ some '0'

/-- A day of a year before 0 or after 9999, whose text has a sign. -/
inductive IsFarDate : List Char → Prop where
  | before {cs ds : List Char} (hds : IsPadded 4 ds) (hleast : 1 ≤ value ds)
      (hgreatest : value ds ≤ 262143) (h : WritesDay cs ('-' :: ds) (-(value ds))) : IsFarDate cs
  | after {cs ds : List Char} (hds : IsPadded 4 ds) (hleast : 10000 ≤ value ds)
      (hgreatest : value ds ≤ 262142) (h : WritesDay cs ('+' :: ds) (value ds)) : IsFarDate cs

/-! Padded numbers. -/

section Padded

variable {size n : Nat} {ds : List Char}

theorem padded_eq (size n : Nat) : padded size n =
    List.replicate (size - (Nat.toDigits 10 n).length) '0' ++ Nat.toDigits 10 n := by
  rw [padded, Nat.toString_eq_ofList_toDigits, String.toList_ofList]

theorem value_padded (size n : Nat) : value (padded size n) = n := by
  rw [padded_eq, value_replicate_zero_append, value_toDigits]

theorem areDigits_padded (size n : Nat) : AreDigits (padded size n) := by
  intro c hc
  rw [padded_eq, List.mem_append] at hc
  cases hc with
  | inl hzero => rw [List.eq_of_mem_replicate hzero]; rfl
  | inr hdigit => exact areDigits_toDigits n c hdigit

theorem length_padded (hn : n < 10 ^ size) (hsize : 0 < size) : (padded size n).length = size := by
  have := (Nat.length_toDigits_le_iff (by decide) hsize).mpr hn
  rw [padded_eq, List.length_append, List.length_replicate]
  omega

theorem isPadded_padded (hsize : 0 < size) (n : Nat) : IsPadded size (padded size n) := by
  refine ⟨areDigits_padded size n, ?_, ?_⟩
  · rw [padded_eq, List.length_append, List.length_replicate]
    omega
  · intro hlen
    rw [padded_eq, List.length_append, List.length_replicate] at hlen
    have hnone : size - (Nat.toDigits 10 n).length = 0 := by omega
    rw [padded_eq, hnone, List.replicate_zero, List.nil_append]
    apply head?_toDigits
    rintro rfl
    rw [Nat.toDigits_zero, List.length_singleton] at hlen
    omega

theorem IsPadded.padded_eq (h : IsPadded size ds) (hsize : 0 < size) :
    padded size (value ds) = ds := by
  have hlen := h.length
  by_cases hmore : size < ds.length
  · obtain ⟨c, rest, rfl⟩ := List.exists_cons_of_length_pos (Nat.lt_trans hsize hmore)
    have hc : c ≠ '0' := fun heq => h.leading hmore (congrArg some heq)
    rw [Calendar.padded_eq, toDigits_value h.digits hc, Nat.sub_eq_zero_of_le hlen]
    rfl
  · have hexact : ds.length = size := by omega
    have hlt := hexact ▸ value_lt h.digits
    have hpadded := length_padded hlt hsize
    exact value_inj (areDigits_padded _ _) h.digits (hpadded.trans hexact.symm) (value_padded _ _)

theorem isPadded_of_length (h : AreDigits ds) (hlen : ds.length = size) : IsPadded size ds :=
  ⟨h, hlen.ge, fun hmore => absurd hlen hmore.ne'⟩

end Padded

/-! Days of the calendar. -/

theorem isLeapYear_iff (y : Int) : isLeapYear y = true ↔ IsLeap y := by
  simp only [isLeapYear, IsLeap, Bool.and_eq_true, Bool.or_eq_true, beq_iff_eq, bne_iff_ne]
  omega

theorem monthLengths_eq {y : Int} {m : Nat} (hm : 1 ≤ m ∧ m ≤ 12) :
    (monthLengths y)[m - 1]? = some (daysInMonth y m) := by
  have ⟨hleast, hgreatest⟩ := hm
  interval_cases m <;> simp [monthLengths, daysInMonth, isLeapYear_iff]

theorem isCalendarDay_iff {y : Int} {m d : Nat} :
    IsCalendarDay y m d ↔ 1 ≤ m ∧ m ≤ 12 ∧ 1 ≤ d ∧ d ≤ daysInMonth y m := by
  constructor
  · intro ⟨hm, hd, length, hlength, hle⟩
    have hlt := (List.getElem?_eq_some_iff.mp hlength).1
    have hgreatest : m ≤ 12 := by
      simp only [monthLengths, List.length_cons, List.length_nil] at hlt
      omega
    rw [monthLengths_eq ⟨hm, hgreatest⟩] at hlength
    exact ⟨hm, hgreatest, hd, Option.some.inj hlength ▸ hle⟩
  · intro ⟨hm, hgreatest, hd, hle⟩
    exact ⟨hm, hd, _, monthLengths_eq ⟨hm, hgreatest⟩, hle⟩

theorem daysInMonth_le (y : Int) (m : Nat) : daysInMonth y m ≤ 31 := by
  unfold daysInMonth
  split
  · split <;> decide
  · split <;> decide

theorem Day.isReal_iff {d : Day} : d.IsReal ↔
    leastYear ≤ d.year ∧ d.year ≤ greatestYear ∧ IsCalendarDay d.year d.month d.day := by
  rw [isCalendarDay_iff]
  rfl

theorem Day.text_eq (d : Day) : d.text = yearText d.year ++ '-' :: padded 2 d.month ++
    '-' :: padded 2 d.day :=
  rfl

theorem WritesDay.exists_text {cs year : List Char} {y : Int} (h : WritesDay cs year y)
    (hyear : yearText y = year) (hleast : leastYear ≤ y) (hgreatest : y ≤ greatestYear) :
    ∃ d : Day, d.IsReal ∧ d.text = cs := by
  obtain ⟨mm, dd, rfl, ⟨hmm, hmmlen⟩, ⟨hdd, hddlen⟩, hday⟩ := h
  refine ⟨⟨y, value mm, value dd⟩, Day.isReal_iff.mpr ⟨hleast, hgreatest, hday⟩, ?_⟩
  rw [Day.text_eq, hyear, (isPadded_of_length hmm hmmlen).padded_eq (by decide),
    (isPadded_of_length hdd hddlen).padded_eq (by decide)]

theorem Day.writesDay_text {d : Day} (h : d.IsReal) :
    WritesDay d.text (yearText d.year) d.year := by
  have ⟨_, _, hday⟩ := Day.isReal_iff.mp h
  have ⟨_, hm, _, hd⟩ := isCalendarDay_iff.mp hday
  have hmonth : d.month < 10 ^ 2 := by omega
  have hdays : d.day < 10 ^ 2 := by
    have := daysInMonth_le d.year d.month
    omega
  refine ⟨_, _, rfl, ⟨areDigits_padded _ _, length_padded hmonth (by decide)⟩,
    ⟨areDigits_padded _ _, length_padded hdays (by decide)⟩, ?_⟩
  rwa [value_padded, value_padded]

/-- The text of a day is a date, with four digits or beyond them. -/
theorem Day.isDate_text {d : Day} (h : d.IsReal) : IsDate d.text ∨ IsFarDate d.text := by
  have hwrites := Day.writesDay_text h
  have ⟨hleast, hgreatest, _⟩ := Day.isReal_iff.mp h
  simp only [leastYear, greatestYear] at hleast hgreatest
  by_cases hplain : 0 ≤ d.year ∧ d.year ≤ 9999
  · have hyear : ((d.year.toNat : Nat) : Int) = d.year := Int.toNat_of_nonneg hplain.1
    have hlen : (padded 4 d.year.toNat).length = 4 := length_padded (by omega) (by decide)
    rw [yearText, if_pos hplain] at hwrites
    refine .inl ⟨padded 4 d.year.toNat, ⟨areDigits_padded _ _, hlen⟩, ?_⟩
    rwa [value_padded, hyear]
  · have hpadded : IsPadded 4 (padded 4 d.year.natAbs) := isPadded_padded (by decide) _
    rw [yearText, if_neg hplain] at hwrites
    right
    by_cases hneg : d.year < 0
    · have hyear : -((d.year.natAbs : Nat) : Int) = d.year := by omega
      rw [if_pos hneg] at hwrites
      refine .before hpadded ?_ ?_ ?_
      · rw [value_padded]; omega
      · rw [value_padded]; omega
      · rwa [value_padded, hyear]
    · have hyear : ((d.year.natAbs : Nat) : Int) = d.year := by omega
      rw [if_neg hneg] at hwrites
      refine .after hpadded ?_ ?_ ?_
      · rw [value_padded]; omega
      · rw [value_padded]; omega
      · rwa [value_padded, hyear]

theorem IsDate.exists_text {cs : List Char} (h : IsDate cs) :
    ∃ d : Day, d.IsReal ∧ d.text = cs := by
  obtain ⟨yyyy, ⟨hyyyy, hlen⟩, h⟩ := h
  have hlt := hlen ▸ value_lt hyyyy
  refine h.exists_text ?_ ?_ ?_
  · rw [yearText, if_pos (by omega), Int.toNat_natCast]
    exact (isPadded_of_length hyyyy hlen).padded_eq (by decide)
  · simp only [leastYear]; omega
  · simp only [greatestYear]; omega

theorem IsFarDate.exists_text {cs : List Char} (h : IsFarDate cs) :
    ∃ d : Day, d.IsReal ∧ d.text = cs := by
  cases h with
  | before hds hleast hgreatest h =>
    refine h.exists_text ?_ ?_ ?_
    · rw [yearText, if_neg (by omega), if_pos (by omega), Int.natAbs_neg, Int.natAbs_natCast,
        hds.padded_eq (by decide)]
    · simp only [leastYear]; omega
    · simp only [greatestYear]; omega
  | after hds hleast hgreatest h =>
    refine h.exists_text ?_ ?_ ?_
    · rw [yearText, if_neg (by omega), if_neg (by omega), Int.natAbs_natCast,
        hds.padded_eq (by decide)]
    · simp only [leastYear]; omega
    · simp only [greatestYear]; omega

theorem IsFarDate.not_isDate {cs : List Char} (h : IsFarDate cs) : ¬IsDate cs := by
  rintro ⟨yyyy, ⟨hdigits, hlen⟩, mm, dd, hcs, _⟩
  have hsign : ∃ sign ∈ cs.head?, sign.isDigit = false := by
    cases h with
    | before _ _ _ h =>
      obtain ⟨_, _, rfl, _⟩ := h
      exact ⟨'-', rfl, rfl⟩
    | after _ _ _ h =>
      obtain ⟨_, _, rfl, _⟩ := h
      exact ⟨'+', rfl, rfl⟩
  obtain ⟨sign, hhead, hsign⟩ := hsign
  obtain ⟨c, rest, rfl⟩ := List.exists_cons_of_length_pos (hlen ▸ (by decide : 0 < 4))
  obtain rfl : c = sign := by simpa [hcs] using hhead
  have := hdigits c List.mem_cons_self
  simp [hsign] at this

/-! Reading the text of a day. -/

/-- No digit comes next. -/
def Stops (rest : List Char) : Prop :=
  ∀ c ∈ rest.head?, c.isDigit = false

theorem stops_nil : Stops [] := by
  simp [Stops]

theorem stops_hyphen (rest : List Char) : Stops ('-' :: rest) := by
  simp [Stops]

theorem isBlank_of_isDigit {c : Char} (h : c.isDigit = true) : isBlank c = false := by
  have := toNat_bounds h
  simp only [isBlank, Bool.or_eq_false_iff, beq_eq_false_iff_ne, decide_eq_false_iff_not]
  omega

theorem dropWhile_isBlank {c : Char} (h : isBlank c = false) (rest : List Char) :
    (c :: rest).dropWhile isBlank = c :: rest :=
  List.dropWhile_cons_of_neg (by simp [h])

theorem le_ofDigitChars (n : Nat) (ds : List Char) : n ≤ Nat.ofDigitChars 10 ds n := by
  rw [Nat.ofDigitChars_eq_ofDigitChars_zero]
  calc n = 1 * n := (Nat.one_mul n).symm
    _ ≤ 10 ^ ds.length * n := Nat.mul_le_mul_right _ (Nat.pow_pos (by decide))
    _ ≤ _ := Nat.le_add_right _ _

theorem addDigits_eq {ds : List Char} {n : Nat}
    (h : Nat.ofDigitChars 10 ds n < 0x8000000000000000) :
    addDigits n ds = .ok (Nat.ofDigitChars 10 ds n) := by
  induction ds generalizing n with
  | nil => rfl
  | cons d ds ih =>
    rw [Nat.ofDigitChars_cons] at h ⊢
    have hnext := Nat.lt_of_le_of_lt (le_ofDigitChars _ ds) h
    simp only [addDigits]
    rw [if_pos hnext, ih h]

/-- Digits are read up to their end, if the limit allows and there are no more. -/
theorem readNumber_append {limit : Option Nat} {ds rest : List Char} (hds : AreDigits ds)
    (hne : ds ≠ []) (hrest : Stops rest) (hlimit : ∀ n ∈ limit, ds.length ≤ n)
    (hvalue : value ds < 0x8000000000000000) :
    readNumber limit (ds ++ rest) = .ok (value ds, rest) := by
  have htake : (ds ++ rest).takeWhile Char.isDigit = ds := by
    have hnone : rest.takeWhile Char.isDigit = [] := by
      cases rest with
      | nil => rfl
      | cons c rest => exact List.takeWhile_cons_of_neg (by simp [hrest c rfl])
    rw [List.takeWhile_append_of_pos hds, hnone, List.append_nil]
  have hwhole : ds ++ rest ≠ [] := List.append_ne_nil_of_left_ne_nil hne rest
  have hadd : addDigits 0 ds = .ok (value ds) := addDigits_eq hvalue
  cases limit with
  | none => simp only [readNumber, htake, hwhole, hne, if_false, hadd, List.drop_left, Except.map]
  | some n =>
    have hall : ds.take n = ds := List.take_of_length_le (hlimit n rfl)
    simp only [readNumber, htake, hall, hwhole, hne, if_false, hadd, List.drop_left, Except.map]

theorem readNumber_padded {limit : Option Nat} {size n : Nat} {rest : List Char} (hsize : 0 < size)
    (hrest : Stops rest) (hlimit : ∀ k ∈ limit, k = size ∧ n < 10 ^ size)
    (hn : n < 0x8000000000000000) : readNumber limit (padded size n ++ rest) = .ok (n, rest) := by
  have hne : padded size n ≠ [] := by
    have := (isPadded_padded hsize n).length
    exact List.ne_nil_of_length_pos (by omega)
  have hlimit : ∀ k ∈ limit, (padded size n).length ≤ k := by
    intro k hk
    have ⟨hk, hlt⟩ := hlimit k hk
    rw [hk, length_padded hlt hsize]
  have hvalue := value_padded size n
  have h := readNumber_append (areDigits_padded size n) hne hrest hlimit (hvalue.symm ▸ hn)
  rwa [hvalue] at h

theorem exists_padded_eq {size : Nat} (hsize : 0 < size) (n : Nat) :
    ∃ c ds, padded size n = c :: ds ∧ c.isDigit = true := by
  have h := isPadded_padded hsize n
  obtain ⟨c, ds, heq⟩ := List.exists_cons_of_length_pos (Nat.lt_of_lt_of_le hsize h.length)
  exact ⟨c, ds, heq, h.digits c (heq ▸ List.mem_cons_self)⟩

theorem dropWhile_padded {size : Nat} (hsize : 0 < size) (n : Nat) (rest : List Char) :
    (padded size n ++ rest).dropWhile isBlank = padded size n ++ rest := by
  obtain ⟨c, ds, heq, hc⟩ := exists_padded_eq hsize n
  rw [heq]
  exact dropWhile_isBlank (isBlank_of_isDigit hc) _

theorem readWithin_padded {least greatest n : Nat} (hn : least ≤ n ∧ n ≤ greatest)
    (hgreatest : greatest < 10 ^ 2) {rest : List Char} (hrest : Stops rest) :
    readWithin least greatest ((padded 2 n ++ rest).dropWhile isBlank) = .ok (n, rest) := by
  have hread : readNumber (some 2) (padded 2 n ++ rest) = .ok (n, rest) :=
    readNumber_padded (by decide) hrest
      (fun k hk => ⟨(Option.some.inj hk).symm, by omega⟩) (by omega)
  rw [dropWhile_padded (by decide)]
  simp only [readWithin, hread, bind, Except.bind]
  rw [if_pos hn]

theorem readYear_of_ne {c : Char} (hminus : c ≠ '-') (hplus : c ≠ '+') {cs rest : List Char}
    {n : Nat} (h : readNumber (some 4) (c :: cs) = .ok (n, rest)) (hn : n < 0x80000000) :
    readYear (c :: cs) = .ok ((n : Int), rest) := by
  unfold readYear
  split
  next heq => exact absurd (List.cons.inj heq).1 hminus
  next heq => exact absurd (List.cons.inj heq).1 hplus
  next =>
    simp only [h, Except.map, bind, Except.bind]
    exact if_pos (by omega)

theorem readYear_yearText {y : Int} (hleast : leastYear ≤ y) (hgreatest : y ≤ greatestYear)
    {rest : List Char} (hrest : Stops rest) :
    readYear ((yearText y ++ rest).dropWhile isBlank) = .ok (y, rest) := by
  simp only [leastYear, greatestYear] at hleast hgreatest
  have hbound : -0x80000000 ≤ y ∧ y < 0x80000000 := by omega
  -- Four digits are read up to the limit, and behind a sign all that come.
  by_cases hplain : 0 ≤ y ∧ y ≤ 9999
  · have hyear : ((y.toNat : Nat) : Int) = y := Int.toNat_of_nonneg hplain.1
    have hread : readNumber (some 4) (padded 4 y.toNat ++ rest) = .ok (y.toNat, rest) :=
      readNumber_padded (by decide) hrest
        (fun k hk => ⟨(Option.some.inj hk).symm, by omega⟩) (by omega)
    rw [yearText, if_pos hplain, dropWhile_padded (by decide)]
    obtain ⟨c, ds, heq, hc⟩ : ∃ c ds, padded 4 y.toNat = c :: ds ∧ c.isDigit = true :=
      exists_padded_eq (by decide) _
    rw [heq, List.cons_append] at hread ⊢
    have hminus : c ≠ '-' := by rintro rfl; simp at hc
    have hplus : c ≠ '+' := by rintro rfl; simp at hc
    rw [readYear_of_ne hminus hplus hread (by omega), hyear]
  · have hnat : readNumber none (padded 4 y.natAbs ++ rest) = .ok (y.natAbs, rest) :=
      readNumber_padded (by decide) hrest (by simp) (by omega)
    rw [yearText, if_neg hplain, List.cons_append]
    by_cases hneg : y < 0
    · have hyear : -((y.natAbs : Nat) : Int) = y := by omega
      rw [if_pos hneg, dropWhile_isBlank (by decide)]
      simp only [readYear, hnat, Except.map, bind, Except.bind, hyear]
      rw [if_pos hbound]
    · have hyear : ((y.natAbs : Nat) : Int) = y := by omega
      rw [if_neg hneg, dropWhile_isBlank (by decide)]
      simp only [readYear, hnat, Except.map, bind, Except.bind, hyear]
      rw [if_pos hbound]

/-- The text of a day reads as that day. -/
theorem readDay_text {d : Day} (h : d.IsReal) : readDay d.text = .ok d := by
  have ⟨hleast, hgreatest, hday⟩ := Day.isReal_iff.mp h
  have ⟨hm, hm', hd, hd'⟩ := isCalendarDay_iff.mp hday
  have hdays := Nat.le_trans hd' (daysInMonth_le d.year d.month)
  have hlast : readWithin 1 31 ((padded 2 d.day).dropWhile isBlank) = .ok (d.day, []) := by
    have := readWithin_padded (n := d.day) ⟨hd, hdays⟩ (by decide) stops_nil
    rwa [List.append_nil] at this
  rw [Day.text_eq, List.append_assoc]
  simp only [readDay, readYear_yearText hleast hgreatest (stops_hyphen _), bind, Except.bind,
    readHyphen, if_true, List.cons_append, readWithin_padded ⟨hm, hm'⟩ (by decide) (stops_hyphen _),
    hlast]
  rw [if_neg (not_not_intro rfl), if_pos h]

theorem isReal_of_readDay {cs : List Char} {d : Day} (h : readDay cs = .ok d) : d.IsReal := by
  simp only [readDay, bind, Except.bind] at h
  -- Each step before the last may fail.
  iterate 5
    split at h
    · contradiction
  split at h
  · contradiction
  · split at h
    next hreal => exact Except.ok.inj h ▸ hreal
    next => contradiction

theorem checkDate_eq_ok_iff_text {s r : String} :
    checkDate s = .ok r ↔ r = s ∧ ∃ d : Day, d.IsReal ∧ d.text = s.toList := by
  unfold checkDate
  constructor
  · intro h
    split at h
    · contradiction
    next d hd =>
      split at h
      next htext => exact ⟨(Except.ok.inj h).symm, d, isReal_of_readDay hd, htext⟩
      next => contradiction
  · rintro ⟨rfl, d, hd, htext⟩
    have hread := readDay_text hd
    rw [htext] at hread
    simp only [hread]
    exact if_pos htext

/-- A date is accepted as it stands, and besides only a day of a year beyond four digits. -/
theorem checkDate_eq_ok_iff (s r : String) :
    (checkDate s = .ok r ↔ r = s ∧ (IsDate s.toList ∨ IsFarDate s.toList)) ∧
      ¬(IsDate s.toList ∧ IsFarDate s.toList) := by
  constructor
  · rw [checkDate_eq_ok_iff_text]
    apply and_congr_right
    intro _
    constructor
    · rintro ⟨d, hd, htext⟩
      exact htext ▸ Day.isDate_text hd
    · rintro (h | h)
      · exact h.exists_text
      · exact h.exists_text
  · rintro ⟨hdate, hfar⟩
    exact hfar.not_isDate hdate

/-- Not a year of four digits, and yet accepted. -/
theorem checkDate_fiveDigits :
    checkDate "+10000-01-01" = .ok "+10000-01-01" ∧ ¬IsDate "+10000-01-01".toList := by
  refine ⟨by cbv, ?_⟩
  rintro ⟨yyyy, ⟨hdigits, hlen⟩, _, _, htext, _⟩
  obtain ⟨c, rest, rfl⟩ := List.exists_cons_of_length_pos (hlen ▸ (by decide : 0 < 4))
  obtain rfl : '+' = c := (List.cons.inj htext).1
  have := hdigits '+' List.mem_cons_self
  contradiction

end Sidecar.Calendar
