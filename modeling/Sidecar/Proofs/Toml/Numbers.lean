import Mathlib
import Sidecar.Proofs.Dates
import Sidecar.Proofs.Toml.Strings
import Sidecar.Toml.Scalar

/-! Numbers and points in time of TOML by their grammar. Each is read as what it is, up to what may
stand behind a value. -/

namespace Sidecar.Toml

open Digits

/-- Digits of one kind, and how they are written: an underscore may stand between two of them. -/
inductive IsRun (isDigit : Char → Bool) : List Char → List Char → Prop where
  | one {d} : isDigit d = true → IsRun isDigit [d] [d]
  | next {d ds cs} : isDigit d = true → IsRun isDigit ds cs → IsRun isDigit (d :: ds) (d :: cs)
  | spaced {d ds cs} : isDigit d = true → IsRun isDigit ds cs →
      IsRun isDigit (d :: ds) (d :: '_' :: cs)

/-- Decimal digits that do not start with a zero, or a zero on its own. -/
inductive IsWhole : List Char → List Char → Prop where
  | zero : IsWhole ['0'] ['0']
  | run {ds cs} : ds.head? ≠ some '0' → IsRun Char.isDigit ds cs → IsWhole ds cs

/-- A sign, negative or not, which may be left out. -/
inductive IsSign : Bool → List Char → Prop where
  | none : IsSign false []
  | plus : IsSign false ['+']
  | minus : IsSign true ['-']

def signed (negative : Bool) (n : Nat) : Int :=
  if negative then -n else n

inductive IsInteger : Int → List Char → Prop where
  | decimal {negative s ds cs} : IsSign negative s → IsWhole ds cs →
      IsInteger (signed negative (valueOf 10 ds)) (s ++ cs)
  | hexadecimal {ds cs} : IsRun isHexDigit ds cs → IsInteger (valueOf 16 ds) ('0' :: 'x' :: cs)
  | octal {ds cs} : IsRun isOctalDigit ds cs → IsInteger (valueOf 8 ds) ('0' :: 'o' :: cs)
  | binary {ds cs} : IsRun isBinaryDigit ds cs → IsInteger (valueOf 2 ds) ('0' :: 'b' :: cs)

inductive IsExponent : Int → List Char → Prop where
  | mk {e negative s ds cs} : e = 'e' ∨ e = 'E' → IsSign negative s → IsRun Char.isDigit ds cs →
      IsExponent (signed negative (valueOf 10 ds)) (e :: (s ++ cs))

/-- A number `m * 10 ^ e` behind a sign, with a fraction, an exponent or both. -/
inductive IsDecimal : Bool → Nat → Int → List Char → Prop where
  | fraction {negative s ds w fs f} : IsSign negative s → IsWhole ds w → IsRun Char.isDigit fs f →
      IsDecimal negative (valueOf 10 (ds ++ fs)) (-(fs.length : Int)) (s ++ (w ++ '.' :: f))
  | exponent {negative s ds w e x} : IsSign negative s → IsWhole ds w → IsExponent e x →
      IsDecimal negative (valueOf 10 ds) e (s ++ (w ++ x))
  | both {negative s ds w fs f e x} : IsSign negative s → IsWhole ds w → IsRun Char.isDigit fs f →
      IsExponent e x →
      IsDecimal negative (valueOf 10 (ds ++ fs)) (e - fs.length) (s ++ (w ++ '.' :: (f ++ x)))

/-- What is infinite or not a number. -/
inductive IsSpecial : List Char → Prop where
  | infinite {negative s} : IsSign negative s → IsSpecial (s ++ ['i', 'n', 'f'])
  | undefined {negative s} : IsSign negative s → IsSpecial (s ++ ['n', 'a', 'n'])

/-- Two digits that write a number below a bound. -/
def IsClock (bound : Nat) (ds : List Char) : Prop :=
  AreDigits ds ∧ ds.length = 2 ∧ value ds < bound

inductive IsSecondFraction : List Char → Prop where
  | none : IsSecondFraction []
  | digits {ds} : ds ≠ [] → AreDigits ds → IsSecondFraction ('.' :: ds)

/-- A time of day, as `hh:mm:ss` with any fraction of a second; a minute may have a leap second. -/
inductive IsTime : List Char → Prop where
  | mk {hh mm ss fs} : IsClock 24 hh → IsClock 60 mm → IsClock 61 ss → IsSecondFraction fs →
      IsTime (hh ++ ':' :: (mm ++ ':' :: (ss ++ fs)))

inductive IsOffset : List Char → Prop where
  | none : IsOffset []
  | universal {z} : z = 'Z' ∨ z = 'z' → IsOffset [z]
  | numeric {s hh mm} : s = '+' ∨ s = '-' → IsClock 24 hh → IsClock 60 mm →
      IsOffset (s :: (hh ++ ':' :: mm))

/-- A day, a time of day, or both with or without an offset. -/
inductive IsMoment : List Char → Prop where
  | date {d} : Calendar.IsDate d → IsMoment d
  | time {t} : IsTime t → IsMoment t
  | both {d t o} {c : Char} : Calendar.IsDate d → c = 'T' ∨ c = 't' ∨ c = ' ' → IsTime t →
      IsOffset o → IsMoment (d ++ c :: (t ++ o))

/-- The bounds of an integer of 64 bits. -/
def FitsInteger (n : Int) : Prop :=
  -2 ^ 63 ≤ n ∧ n < 2 ^ 63

/-- A number `m * 10 ^ e` that is rounded to a finite double. -/
def FitsDouble (m : Nat) (e : Int) : Prop :=
  (m : ℚ) * 10 ^ e < 2 ^ 1024 - 2 ^ 970

/-- What may stand behind a value: blanks, and then a mark or the end of the text. -/
def Stops (rest : List Char) : Prop :=
  ∀ c, (skipBlanks rest).head? = some c → c ∈ [',', ']', '\x7d', '#', '\n', '\r']

/-- What may stand right behind a value. -/
def stopMarks : List Char :=
  [' ', '\t', ',', ']', '\x7d', '#', '\n', '\r']

theorem Stops.mem {rest : List Char} (h : Stops rest) {c : Char} (hc : rest.head? = some c) :
    c ∈ stopMarks := by
  obtain ⟨tail, rfl⟩ := List.head?_eq_some_iff.mp hc
  by_cases hblank : isBlank c = true
  · obtain rfl | rfl := isBlank_iff.mp hblank <;> decide
  · have := h c (by rw [skipBlanks, List.dropWhile_cons_of_neg hblank]; rfl)
    exact List.mem_cons_of_mem _ (List.mem_cons_of_mem _ this)

theorem Stops.not_digit {rest : List Char} (h : Stops rest) (c : Char)
    (hc : rest.head? = some c) : c.isDigit = false ∧ c ≠ '_' := by
  have hall : ∀ c ∈ stopMarks, c.isDigit = false ∧ c ≠ '_' := by simp [stopMarks]
  exact hall c (h.mem hc)

/-! ### The range of doubles -/

theorem pow_le_of_length {m : Nat} (hm : m ≠ 0) :
    (10 : ℚ) ^ ((toString m).length - 1 : Int) ≤ m := by
  have hlen : (toString m).length = (Nat.toDigits 10 m).length := by
    rw [Nat.toString_eq_ofList_toDigits, String.length_ofList]
  have hpos : 0 < (Nat.toDigits 10 m).length := Nat.length_toDigits_pos
  have hle : 10 ^ ((Nat.toDigits 10 m).length - 1) ≤ m := by
    by_cases hone : (Nat.toDigits 10 m).length = 1
    · rw [hone]
      exact Nat.one_le_iff_ne_zero.mpr hm
    · by_contra hlt
      have := (Nat.length_toDigits_le_iff (by decide) (by omega)).mpr (Nat.not_le.mp hlt)
      omega
  have hcast :
      ((toString m).length - 1 : Int) = (((Nat.toDigits 10 m).length - 1 : Nat) : Int) := by
    omega
  rw [hcast, zpow_natCast]
  exact_mod_cast hle

theorem cast_doubleBound : (doubleBound : ℚ) = 2 ^ 1024 - 2 ^ 970 := by
  have hle : Nat.pow 2 970 ≤ Nat.pow 2 1024 := by decide +kernel
  rw [doubleBound, Nat.cast_sub hle]
  simp only [Nat.pow_eq, Nat.cast_pow, Nat.cast_ofNat]

theorem doubles_lt : (2 : ℚ) ^ 1024 - 2 ^ 970 < 10 ^ (310 : Int) := by
  have hlt : (2 : Nat) ^ 1024 < 10 ^ 310 := by decide +kernel
  have hcast : ((2 ^ 1024 : Nat) : ℚ) < ((10 ^ 310 : Nat) : ℚ) := Nat.cast_lt.mpr hlt
  rw [Nat.cast_pow, Nat.cast_pow] at hcast
  have hpos : (0 : ℚ) < 2 ^ 970 := by positivity
  calc (2 : ℚ) ^ 1024 - 2 ^ 970 < 2 ^ 1024 := sub_lt_self _ hpos
    _ < 10 ^ 310 := hcast

/-- The comparison in whole numbers, by the sign of the exponent. -/
theorem lt_in_nat {bound m : Nat} {e : Int} (h : (m : ℚ) * 10 ^ e < bound) :
    (0 ≤ e → m * Nat.pow 10 e.toNat < bound) ∧
      (¬0 ≤ e → m < bound * Nat.pow 10 (-e).toNat) := by
  refine ⟨fun he => ?_, fun he => ?_⟩
  · have hpow : (10 : ℚ) ^ e = 10 ^ e.toNat := by
      rw [← zpow_natCast, Int.toNat_of_nonneg he]
    rw [hpow] at h
    exact_mod_cast h
  · have hpow : (10 : ℚ) ^ e = (10 ^ (-e).toNat)⁻¹ := by
      rw [← zpow_natCast, ← zpow_neg, Int.toNat_of_nonneg (by omega), neg_neg]
    rw [hpow, ← div_eq_mul_inv, div_lt_iff₀ (by positivity)] at h
    exact_mod_cast h

theorem FitsDouble.exceedsDoubles_eq {m : Nat} {e : Int} (h : FitsDouble m e) :
    exceedsDoubles m e = false := by
  unfold exceedsDoubles
  dsimp only
  split
  next => rfl
  next hsmall =>
    rw [not_or] at hsmall
    split
    next hlarge =>
      exfalso
      apply lt_irrefl ((10 : ℚ) ^ (310 : Int))
      calc (10 : ℚ) ^ (310 : Int)
          ≤ 10 ^ (((toString m).length - 1 : Int) + e) :=
            zpow_le_zpow_right₀ (by norm_num) (by omega)
        _ = 10 ^ ((toString m).length - 1 : Int) * 10 ^ e := zpow_add₀ (by norm_num) _ _
        _ ≤ m * 10 ^ e := by gcongr; exact pow_le_of_length hsmall.1
        _ < 2 ^ 1024 - 2 ^ 970 := h
        _ < 10 ^ (310 : Int) := doubles_lt
    next =>
      rw [FitsDouble, ← cast_doubleBound] at h
      obtain ⟨hnonneg, hneg⟩ := lt_in_nat h
      split
      next he => exact decide_eq_false (Nat.not_le.mpr (hnonneg he))
      next he => exact decide_eq_false (Nat.not_le.mpr (hneg he))

/-! ### Digits -/

section

variable {isDigit : Char → Bool} {ds cs rest : List Char}

theorem IsRun.exists_cons (h : IsRun isDigit ds cs) :
    ∃ d more tail, ds = d :: more ∧ cs = d :: tail ∧ isDigit d = true := by
  cases h with
  | one hd | next hd | spaced hd => exact ⟨_, _, _, rfl, rfl, hd⟩

/-- Digits may be written without underscores. -/
theorem IsRun.of_forall (hne : ds ≠ []) (h : ∀ d ∈ ds, isDigit d = true) : IsRun isDigit ds ds := by
  induction ds with
  | nil => exact absurd rfl hne
  | cons d ds ih =>
    obtain ⟨hd, hds⟩ := List.forall_mem_cons.mp h
    cases ds with
    | nil => exact .one hd
    | cons e ds => exact .next hd (ih (List.cons_ne_nil e ds) hds)

/-- Digits are read to their end. -/
theorem digits?_append (h : IsRun isDigit ds cs) (hunderscore : isDigit '_' = false)
    (hrest : ∀ c, rest.head? = some c → isDigit c = false ∧ c ≠ '_') :
    digits? isDigit (cs ++ rest) = some (ds, rest) := by
  induction h with
  | one hd =>
    cases rest with
    | nil => rw [List.append_nil, digits?.eq_4, if_pos hd]
    | cons c rest =>
      obtain ⟨hc, hne⟩ := hrest c rfl
      rw [List.singleton_append, digits?.eq_3 _ _ _ _ hne, if_pos hd, if_neg (by simp [hc])]
  | next hd hrun ih =>
    obtain ⟨d, more, tail, rfl, rfl, hnext⟩ := hrun.exists_cons
    have hne : d ≠ '_' := by
      rintro rfl
      simp [hunderscore] at hnext
    rw [List.cons_append] at ih ⊢
    rw [List.cons_append, digits?.eq_3 _ _ _ _ hne, if_pos hd, if_pos hnext, ih]
    rfl
  | spaced hd _ ih =>
    rw [List.cons_append, List.cons_append, digits?.eq_2, if_pos hd, ih]
    rfl

theorem IsWhole.exists_cons (h : IsWhole ds cs) : ∃ d tail, cs = d :: tail ∧ d.isDigit = true := by
  cases h with
  | zero => exact ⟨'0', [], rfl, by decide⟩
  | run _ hrun =>
    obtain ⟨d, _, tail, _, rfl, hd⟩ := hrun.exists_cons
    exact ⟨d, tail, rfl, hd⟩

theorem whole?_append (h : IsWhole ds cs)
    (hrest : ∀ c, rest.head? = some c → c.isDigit = false ∧ c ≠ '_') :
    whole? (cs ++ rest) = some (ds, rest) := by
  cases h with
  | zero => rfl
  | run hzero hrun =>
    have hdigits := digits?_append hrun (by decide) hrest
    obtain ⟨d, more, tail, rfl, rfl, _⟩ := hrun.exists_cons
    rw [List.cons_append, whole?.eq_2, ← List.cons_append, hdigits]
    rintro _ heq
    exact hzero (congrArg some (List.cons.inj heq).1)

theorem sign_append {negative : Bool} {s : List Char} (h : IsSign negative s)
    (hrest : ∀ c, rest.head? = some c → c ≠ '-' ∧ c ≠ '+') :
    sign (s ++ rest) = (negative, rest) := by
  cases h with
  | plus | minus => rfl
  | none =>
    apply sign.eq_3
    · rintro _ rfl
      exact (hrest _ rfl).1 rfl
    · rintro _ rfl
      exact (hrest _ rfl).2 rfl

theorem IsWhole.isRun (h : IsWhole ds cs) : IsRun Char.isDigit ds cs := by
  cases h with
  | zero => exact .one (by decide)
  | run _ hrun => exact hrun

/-- Digits with underscores end where a digit or an underscore does not follow. -/
theorem IsRun.head?_dropWhile (h : IsRun Char.isDigit ds cs)
    (hrest : ∀ c, rest.head? = some c → c.isDigit = false) {c : Char}
    (hc : ((cs ++ rest).dropWhile Char.isDigit).head? = some c) :
    c = '_' ∨ rest.head? = some c := by
  induction h with
  | one hd =>
    rw [List.singleton_append, List.dropWhile_cons_of_pos hd] at hc
    cases rest with
    | nil => simp at hc
    | cons d rest =>
      rw [List.dropWhile_cons_of_neg (by simp [hrest d rfl])] at hc
      exact .inr hc
  | next hd _ ih =>
    rw [List.cons_append, List.dropWhile_cons_of_pos hd] at hc
    exact ih hc
  | spaced hd _ _ =>
    rw [List.cons_append, List.dropWhile_cons_of_pos hd] at hc
    exact .inl (Option.some.inj hc).symm

end

/-! ### Numbers that are no points in time -/

section

variable {ds cs rest s w : List Char} {negative : Bool}

theorem valueOf_eq (h : AreDigits ds) : valueOf 10 ds = value ds := by
  rw [value, Nat.ofDigitChars_eq_foldl, valueOf]
  apply List.foldl_ext
  intro n c hc
  rw [digitValue, if_pos (h c hc)]

theorem number?_append {n : Nat} (h : AreDigits ds) (hlen : ds.length = n) (rest : List Char) :
    number? n (ds ++ rest) = some (value ds, rest) := by
  subst hlen
  rw [number?, List.take_left, List.drop_left, if_pos ⟨rfl, List.all_eq_true.mpr h⟩, valueOf_eq h]

theorem exists_of_number? {n v : Nat} (h : number? n cs = some (v, rest)) :
    ∃ ds, AreDigits ds ∧ ds.length = n ∧ cs = ds ++ rest := by
  rw [number?] at h
  split at h
  next hds =>
    obtain ⟨-, rfl⟩ := Prod.mk.inj (Option.some.inj h)
    exact ⟨_, List.all_eq_true.mp hds.2, hds.1, (List.take_append_drop n cs).symm⟩
  next => contradiction

theorem char?_self (c : Char) (rest : List Char) : char? c (c :: rest) = some rest :=
  if_pos rfl

theorem exists_of_char? {c : Char} (h : char? c cs = some rest) : cs = c :: rest := by
  unfold char? at h
  split at h
  next =>
    split at h
    next heq => rw [heq, Option.some.inj h]
    next => contradiction
  next => contradiction

theorem date?_eq_none (h : ∀ ds after, AreDigits ds → ds.length = 4 → cs ≠ ds ++ '-' :: after) :
    date? cs = none := by
  rw [date?, Option.bind_eq_bind, Option.bind_eq_none_iff]
  rintro ⟨v, after⟩ hv
  obtain ⟨ds, hds, hlen, rfl⟩ := exists_of_number? hv
  cases hchar : char? '-' after with
  | none =>
    dsimp only
    rw [hchar]
    rfl
  | some tail => exact absurd (congrArg (ds ++ ·) (exists_of_char? hchar)) (h ds tail hds hlen)

theorem time?_eq_none (h : ∀ ds after, AreDigits ds → ds.length = 2 → cs ≠ ds ++ ':' :: after) :
    time? cs = none := by
  rw [time?, Option.bind_eq_bind, Option.bind_eq_none_iff]
  rintro ⟨v, after⟩ hv
  obtain ⟨ds, hds, hlen, rfl⟩ := exists_of_number? hv
  cases hchar : char? ':' after with
  | none =>
    dsimp only
    rw [hchar]
    rfl
  | some tail => exact absurd (congrArg (ds ++ ·) (exists_of_char? hchar)) (h ds tail hds hlen)

theorem moment?_eq_none
    (h : ∀ ds c after, AreDigits ds → ds ≠ [] → c = '-' ∨ c = ':' → cs ≠ ds ++ c :: after) :
    moment? cs = none := by
  rw [moment?, date?_eq_none, time?_eq_none]
  · intro ds after hds hlen
    exact h ds ':' after hds (List.ne_nil_of_length_pos (by omega)) (.inr rfl)
  · intro ds after hds hlen
    exact h ds '-' after hds (List.ne_nil_of_length_pos (by omega)) (.inl rfl)

theorem moment?_cons_eq_none {c : Char} (h : c.isDigit = false) (cs : List Char) :
    moment? (c :: cs) = none := by
  apply moment?_eq_none
  rintro ds d after hds hne - heq
  obtain ⟨e, ds, rfl⟩ := List.exists_cons_of_ne_nil hne
  rw [(List.cons.inj heq).1, hds e List.mem_cons_self] at h
  contradiction

/-- Digits behind a sign are no point in time, unless a mark of one follows. -/
theorem moment?_append_eq_none (hs : IsSign negative s) (h : IsRun Char.isDigit ds cs)
    (hrest : ∀ c, rest.head? = some c → c.isDigit = false ∧ c ≠ '-' ∧ c ≠ ':') :
    moment? (s ++ (cs ++ rest)) = none := by
  cases hs with
  | plus | minus => exact moment?_cons_eq_none (by decide) _
  | none =>
    apply moment?_eq_none
    rintro es c after hes - hc heq
    have hc' : c.isDigit = false := by
      obtain rfl | rfl := hc <;> decide
    have hdrop : ((cs ++ rest).dropWhile Char.isDigit).head? = some c := by
      rw [List.nil_append] at heq
      rw [heq, List.dropWhile_append_of_pos hes, List.dropWhile_cons_of_neg (by simp [hc'])]
      rfl
    obtain rfl | hhead := h.head?_dropWhile (fun c hc => (hrest c hc).1) hdrop
    · simp at hc
    · obtain ⟨_, hminus, hcolon⟩ := hrest c hhead
      exact hc.elim hminus hcolon

/-! ### Decimals -/

theorem IsWhole.sign_append (hs : IsSign negative s) (hw : IsWhole ds w) (rest : List Char) :
    sign (s ++ (w ++ rest)) = (negative, w ++ rest) := by
  obtain ⟨d, tail, rfl, hd⟩ := hw.exists_cons
  apply Toml.sign_append hs
  rintro c hc
  obtain rfl : d = c := Option.some.inj hc
  constructor
  · rintro rfl
    contradiction
  · rintro rfl
    contradiction

theorem exponent?_append {e : Int} {x : List Char} (h : IsExponent e x)
    (hrest : ∀ c, rest.head? = some c → c.isDigit = false ∧ c ≠ '_') :
    exponent? (x ++ rest) = some (e, rest) := by
  cases h with
  | @mk e negative s ds cs he hs hrun =>
    have hsign : sign (s ++ (cs ++ rest)) = (negative, cs ++ rest) := by
      obtain ⟨d, _, tail, _, rfl, hd⟩ := hrun.exists_cons
      apply Toml.sign_append hs
      rintro c hc
      obtain rfl : d = c := Option.some.inj hc
      constructor
      · rintro rfl
        contradiction
      · rintro rfl
        contradiction
    have hmark : ¬(e ≠ 'e' ∧ e ≠ 'E') := by
      rintro ⟨hlower, hupper⟩
      exact he.elim hlower hupper
    rw [List.cons_append, List.append_assoc, exponent?]
    simp only [hmark, if_false, hsign, digits?_append hrun (by decide) hrest, bind, Option.bind]
    rfl

theorem exponent?_eq_none (hrest : ∀ c, rest.head? = some c → c ≠ 'e' ∧ c ≠ 'E') :
    exponent? rest = none := by
  cases rest with
  | nil => rfl
  | cons c rest =>
    rw [exponent?, if_pos (hrest c rfl)]
    rfl

theorem float?_whole (hs : IsSign negative s) (hw : IsWhole ds w)
    (hrest : ∀ c, rest.head? = some c → c.isDigit = false ∧ c ≠ '_') :
    float? (s ++ (w ++ rest)) = float?.behind negative ds rest := by
  have hwhole := whole?_append hw hrest
  rw [float?, hw.sign_append hs]
  dsimp only
  obtain ⟨d, tail, rfl, hd⟩ := hw.exists_cons
  split
  next heq =>
    rw [(List.cons.inj heq).1] at hd
    contradiction
  next heq =>
    rw [(List.cons.inj heq).1] at hd
    contradiction
  next =>
    rw [hwhole]
    rfl

/-- Digits with neither a fraction nor an exponent are no decimal. -/
theorem float?_eq_none (hs : IsSign negative s) (hw : IsWhole ds w)
    (hrest : ∀ c, rest.head? = some c →
      c.isDigit = false ∧ c ≠ '_' ∧ c ≠ '.' ∧ c ≠ 'e' ∧ c ≠ 'E') :
    float? (s ++ (w ++ rest)) = none := by
  have hpoint : ∀ tail, rest ≠ '.' :: tail := by
    rintro tail rfl
    exact (hrest '.' rfl).2.2.1 rfl
  rw [float?_whole hs hw fun c hc => ⟨(hrest c hc).1, (hrest c hc).2.1⟩,
    float?.behind.eq_2 _ _ _ hpoint, exponent?_eq_none fun c hc => (hrest c hc).2.2.2]
  rfl

theorem accept_eq {m : Nat} {e : Int} (h : negative = false → FitsDouble m e) (rest : List Char) :
    float?.accept negative m e rest = some rest := by
  cases negative with
  | true => rfl
  | false => rw [float?.accept, (h rfl).exceedsDoubles_eq]; rfl

theorem IsExponent.exists_cons {e : Int} {x : List Char} (h : IsExponent e x) :
    ∃ c tail, x = c :: tail ∧ (c = 'e' ∨ c = 'E') := by
  cases h with
  | mk he => exact ⟨_, _, rfl, he⟩

theorem IsExponent.head_ne {e : Int} {x : List Char} (h : IsExponent e x) (c : Char)
    (hc : (x ++ rest).head? = some c) : c.isDigit = false ∧ c ≠ '_' := by
  obtain ⟨d, tail, rfl, hd⟩ := h.exists_cons
  obtain rfl : d = c := Option.some.inj hc
  obtain rfl | rfl := hd <;> decide

/-- A decimal is read to its end. -/
theorem float?_append {m : Nat} {e : Int} (h : IsDecimal negative m e cs)
    (hfits : negative = false → FitsDouble m e) (hrest : Stops rest) :
    float? (cs ++ rest) = some rest := by
  have hstop := hrest.not_digit
  have hpoint {tail : List Char} (c : Char) (hc : ('.' :: tail).head? = some c) :
      c.isDigit = false ∧ c ≠ '_' := by
    obtain rfl := Option.some.inj hc
    decide
  cases h with
  | fraction hs hw hf =>
    rw [List.append_assoc, List.append_assoc, List.cons_append, float?_whole hs hw hpoint,
      float?.behind.eq_1, digits?_append hf (by decide) hstop]
    simp only [bind, Option.bind]
    split
    next => exact absurd (hrest.mem rfl) (by decide)
    next => exact absurd (hrest.mem rfl) (by decide)
    next => exact accept_eq hfits rest
  | @exponent s ds w _ x hs hw hx =>
    have hpoint : ∀ tail, x ++ rest ≠ '.' :: tail := by
      obtain ⟨c, x, rfl, hc⟩ := hx.exists_cons
      rintro tail heq
      rw [(List.cons.inj heq).1] at hc
      simp at hc
    rw [List.append_assoc, List.append_assoc, float?_whole hs hw hx.head_ne,
      float?.behind.eq_2 _ _ _ hpoint, exponent?_append hx hstop]
    exact accept_eq hfits rest
  | both hs hw hf hx =>
    rw [List.append_assoc, List.append_assoc, List.cons_append, List.append_assoc,
      float?_whole hs hw hpoint, float?.behind.eq_1, digits?_append hf (by decide) hx.head_ne]
    have hexponent := exponent?_append hx hstop
    obtain ⟨c, x, rfl, hc⟩ := hx.exists_cons
    rw [List.cons_append] at hexponent ⊢
    obtain rfl | rfl := hc
    · simp only [bind, Option.bind, hexponent]
      exact accept_eq hfits rest
    · simp only [bind, Option.bind, hexponent]
      exact accept_eq hfits rest

theorem float?_special (h : IsSpecial cs) (rest : List Char) : float? (cs ++ rest) = some rest := by
  cases h with
  | infinite hs => cases hs <;> rfl
  | undefined hs => cases hs <;> rfl

/-! ### Integers -/

theorem FitsInteger.fitsInteger_eq {n : Int} (h : FitsInteger n) : fitsInteger n = true := by
  unfold FitsInteger at h
  unfold fitsInteger
  rw [decide_eq_true_iff]
  omega

theorem integerIn?_append {base : Nat} {isDigit : Char → Bool} (h : IsRun isDigit ds cs)
    (hunderscore : isDigit '_' = false) (hfits : FitsInteger (valueOf base ds))
    (hrest : ∀ c, rest.head? = some c → isDigit c = false ∧ c ≠ '_') :
    integerIn? base isDigit (cs ++ rest) = some ((valueOf base ds : Int), rest) := by
  rw [integerIn?, digits?_append h hunderscore hrest, Option.bind_eq_bind, Option.bind_some]
  dsimp only
  rw [if_pos hfits.fitsInteger_eq]

/-- A decimal integer has no mark of another base. -/
theorem IsWhole.ne_marked (hs : IsSign negative s) (hw : IsWhole ds w) (hrest : Stops rest)
    {c : Char} (hc : c ∉ stopMarks) (tail : List Char) : s ++ (w ++ rest) ≠ '0' :: c :: tail := by
  cases hs with
  | plus | minus => simp
  | none =>
    cases hw with
    | zero =>
      rintro heq
      have hbehind : rest = c :: tail := (List.cons.inj heq).2
      exact hc (hrest.mem (congrArg List.head? hbehind))
    | run hzero hrun =>
      obtain ⟨d, more, tail, rfl, rfl, _⟩ := hrun.exists_cons
      rintro heq
      exact hzero (congrArg some (List.cons.inj heq).1)

/-- An integer is read to its end. -/
theorem integer?_append {n : Int} (h : IsInteger n cs) (hfits : FitsInteger n)
    (hrest : Stops rest) : integer? (cs ++ rest) = some (n, rest) := by
  cases h with
  | @decimal negative s ds w hs hw =>
    have hwhole := whole?_append hw hrest.not_digit
    have hother {c : Char} (hc : c ∉ stopMarks) := hw.ne_marked hs hrest hc
    rw [List.append_assoc, integer?.eq_4 _ (hother (by decide)) (hother (by decide))
      (hother (by decide)), hw.sign_append hs]
    simp only [bind, Option.bind, hwhole]
    exact if_pos hfits.fitsInteger_eq
  | hexadecimal hrun =>
    have hall : ∀ c ∈ stopMarks, isHexDigit c = false ∧ c ≠ '_' := by simp [stopMarks, isHexDigit]
    exact integerIn?_append hrun (by decide) hfits fun c hc => hall c (hrest.mem hc)
  | octal hrun =>
    have hall : ∀ c ∈ stopMarks, isOctalDigit c = false ∧ c ≠ '_' := by
      simp [stopMarks, isOctalDigit]
    exact integerIn?_append hrun (by decide) hfits fun c hc => hall c (hrest.mem hc)
  | binary hrun =>
    have hall : ∀ c ∈ stopMarks, isBinaryDigit c = false ∧ c ≠ '_' := by
      simp [stopMarks, isBinaryDigit]
    exact integerIn?_append hrun (by decide) hfits fun c hc => hall c (hrest.mem hc)

/-! ### Points in time -/

theorem isLeapYear_natCast (y : Nat) : Calendar.isLeapYear y = isLeapYear y := by
  rw [Bool.eq_iff_iff, Calendar.isLeapYear_iff]
  simp only [Calendar.IsLeap, isLeapYear, Bool.and_eq_true, Bool.or_eq_true, beq_iff_eq, bne_iff_ne]
  omega

theorem daysInMonth_natCast (y m : Nat) : Calendar.daysInMonth y m = daysIn y m := by
  rw [Calendar.daysInMonth, daysIn, isLeapYear_natCast]

theorem date?_append (h : Calendar.IsDate cs) (rest : List Char) :
    date? (cs ++ rest) = some rest := by
  obtain ⟨yyyy, ⟨hyyyy, hylen⟩, mm, dd, rfl, ⟨hmm, hmlen⟩, ⟨hdd, hdlen⟩, hday⟩ := h
  obtain ⟨hm, hm', hd, hd'⟩ := Calendar.isCalendarDay_iff.mp hday
  rw [daysInMonth_natCast] at hd'
  simp only [date?, List.append_assoc, List.cons_append, number?_append hyyyy hylen,
    number?_append hmm hmlen, number?_append hdd hdlen, char?_self, bind, Option.bind, hm, hm', hd,
    hd', and_self, if_true]

theorem IsClock.number?_eq {bound : Nat} (h : IsClock bound ds) (rest : List Char) :
    number? 2 (ds ++ rest) = some (value ds, rest) :=
  number?_append h.1 h.2.1 rest

theorem time?_append (h : IsTime cs)
    (hrest : ∀ c, rest.head? = some c → c.isDigit = false ∧ c ≠ '.') :
    time? (cs ++ rest) = some rest := by
  cases h with
  | mk hh hm hs hf =>
    have hsecond := Nat.lt_succ_iff.mp hs.2.2
    simp only [time?, List.append_assoc, List.cons_append, hh.number?_eq, hm.number?_eq,
      hs.number?_eq, char?_self, bind, Option.bind, hh.2.2, hm.2.2, hsecond, and_self, if_true]
    cases hf with
    | none =>
      rw [List.nil_append]
      split
      next => exact absurd rfl (hrest '.' rfl).2
      next => rfl
    | @digits ds hne hds =>
      have htake : (ds ++ rest).takeWhile Char.isDigit = ds := by
        rw [List.takeWhile_append_of_pos hds]
        cases rest with
        | nil => simp
        | cons c rest =>
          rw [List.takeWhile_cons_of_neg (by simp [(hrest c rfl).1]), List.append_nil]
      simp only [List.cons_append, htake, hne, if_false, List.drop_left]

theorem offset?_eq_none (hrest : Stops rest) : offset? rest = none := by
  have hall : ∀ c ∈ stopMarks, c ≠ 'Z' ∧ c ≠ 'z' ∧ c ≠ '+' ∧ c ≠ '-' := by simp [stopMarks]
  unfold offset?
  split
  next => exact absurd rfl (hall 'Z' (hrest.mem rfl)).1
  next => exact absurd rfl (hall 'z' (hrest.mem rfl)).2.1
  next =>
    rw [if_pos (hall _ (hrest.mem rfl)).2.2]
    rfl
  next => rfl

theorem offset?_append (h : IsOffset cs) (hrest : Stops rest) :
    (offset? (cs ++ rest)).getD (cs ++ rest) = rest := by
  cases h with
  | none =>
    rw [List.nil_append, offset?_eq_none hrest]
    rfl
  | universal hz => obtain rfl | rfl := hz <;> rfl
  | numeric hs hh hm =>
    obtain rfl | rfl := hs <;>
      simp [offset?, hh.number?_eq, hm.number?_eq, char?_self, hh.2.2, hm.2.2]

theorem IsOffset.head_ne (h : IsOffset cs) (hrest : Stops rest) (c : Char)
    (hc : (cs ++ rest).head? = some c) : c.isDigit = false ∧ c ≠ '.' := by
  cases h with
  | none =>
    have hall : ∀ c ∈ stopMarks, c.isDigit = false ∧ c ≠ '.' := by simp [stopMarks]
    exact hall c (hrest.mem hc)
  | universal hz =>
    obtain rfl := Option.some.inj hc
    obtain rfl | rfl := hz <;> decide
  | numeric hs =>
    obtain rfl := Option.some.inj hc
    obtain rfl | rfl := hs <;> decide

/-- No time follows a day that stands alone, even behind a blank. -/
theorem Stops.time?_eq_none (h : Stops (' ' :: rest)) : time? rest = none := by
  apply Toml.time?_eq_none
  rintro ds after hds hlen rfl
  obtain ⟨d, ds, rfl⟩ := List.exists_cons_of_length_pos (show 0 < ds.length by omega)
  have hd := hds d List.mem_cons_self
  have hblank : ¬isBlank d = true := by
    intro hblank
    obtain rfl | rfl := isBlank_iff.mp hblank <;> contradiction
  have hmem := h d (by
    rw [skipBlanks, List.dropWhile_cons_of_pos (by decide), List.cons_append,
      List.dropWhile_cons_of_neg hblank]
    rfl)
  have hall : ∀ c ∈ [',', ']', '\x7d', '#', '\n', '\r'], c.isDigit = false := by simp
  rw [hall d hmem] at hd
  contradiction

theorem date?_eq_none_of_isTime (h : IsTime cs) (rest : List Char) : date? (cs ++ rest) = none := by
  cases h with
  | mk hh =>
    apply date?_eq_none
    rintro ds after hds - heq
    have hdrop := congrArg (List.dropWhile Char.isDigit) heq
    rw [List.append_assoc, List.dropWhile_append_of_pos hh.1, List.dropWhile_append_of_pos hds,
      List.cons_append, List.dropWhile_cons_of_neg (by decide),
      List.dropWhile_cons_of_neg (by decide)] at hdrop
    simp at hdrop

/-- A point in time is read to its end. -/
theorem moment?_append (h : IsMoment cs) (hrest : Stops rest) :
    moment? (cs ++ rest) = some rest := by
  cases h with
  | date hd =>
    rw [moment?, date?_append hd]
    dsimp only
    cases rest with
    | nil => rfl
    | cons c after =>
      dsimp only
      by_cases hc : c = ' '
      · subst hc
        rw [hrest.time?_eq_none, if_pos (.inr (.inr rfl))]
      · have hall : ∀ c ∈ stopMarks, c ≠ 'T' ∧ c ≠ 't' := by simp [stopMarks]
        obtain ⟨hupper, hlower⟩ := hall c (hrest.mem rfl)
        rw [if_neg (by simp [hupper, hlower, hc])]
  | time ht =>
    have hall : ∀ c ∈ stopMarks, c.isDigit = false ∧ c ≠ '.' := by simp [stopMarks]
    rw [moment?, date?_eq_none_of_isTime ht]
    exact time?_append ht fun c hc => hall c (hrest.mem hc)
  | both hd hc ht ho =>
    rw [List.append_assoc, List.cons_append, List.append_assoc, moment?, date?_append hd]
    dsimp only
    rw [if_pos hc, time?_append ht (ho.head_ne hrest)]
    dsimp only
    rw [offset?_append ho hrest]

end

end Sidecar.Toml
