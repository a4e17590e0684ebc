import Mathlib

/-! Numbers and the decimal digits that write them. Digits of one length write different numbers,
and without a zero in front they are how their number is written. -/

namespace Sidecar.Digits

def AreDigits (ds : List Char) : Prop :=
  ∀ c ∈ ds, c.isDigit = true

/-- The number that digits write. -/
def value (ds : List Char) : Nat :=
  Nat.ofDigitChars 10 ds 0

theorem value_toDigits (n : Nat) : value (Nat.toDigits 10 n) = n :=
  Nat.ofDigitChars_ten_toDigits

theorem areDigits_toDigits (n : Nat) : AreDigits (Nat.toDigits 10 n) :=
  fun _ => Nat.isDigit_of_mem_toDigits (by decide) (by decide)

theorem value_cons (c : Char) (ds : List Char) :
    value (c :: ds) = 10 ^ ds.length * (c.toNat - '0'.toNat) + value ds := by
  rw [value, Nat.ofDigitChars_cons, Nat.ofDigitChars_eq_ofDigitChars_zero, Nat.mul_zero,
    Nat.zero_add, value]

theorem value_replicate_zero_append (n : Nat) (ds : List Char) :
    value (List.replicate n '0' ++ ds) = value ds := by
  rw [value, Nat.ofDigitChars_append, Nat.ofDigitChars_replicate_zero, Nat.mul_zero, value]

theorem toNat_bounds {c : Char} (h : c.isDigit = true) : 48 ≤ c.toNat ∧ c.toNat ≤ 57 :=
  Char.isDigit_iff_toNat.mp h

variable {c : Char} {ds es : List Char}

theorem value_lt (h : AreDigits ds) : value ds < 10 ^ ds.length := by
  induction ds with
  | nil => decide
  | cons c ds ih =>
    have ⟨hc, hds⟩ := List.forall_mem_cons.mp h
    have hdigit : c.toNat - '0'.toNat ≤ 9 := by
      have hzero : '0'.toNat = 48 := rfl
      have := toNat_bounds hc
      omega
    calc value (c :: ds)
        = 10 ^ ds.length * (c.toNat - '0'.toNat) + value ds := value_cons c ds
      _ < 10 ^ ds.length * 9 + 10 ^ ds.length :=
        Nat.add_lt_add_of_le_of_lt (Nat.mul_le_mul_left _ hdigit) (ih hds)
      _ = 10 ^ (c :: ds).length := by rw [List.length_cons, Nat.pow_succ]; omega

/-- Digits of one length are told apart by the number that they write. -/
theorem value_inj (hds : AreDigits ds) (hes : AreDigits es) (hlen : ds.length = es.length)
    (h : value ds = value es) : ds = es := by
  induction ds generalizing es with
  | nil => exact (List.length_eq_zero_iff.mp hlen.symm).symm
  | cons c ds ih =>
    cases es with
    | nil => simp at hlen
    | cons d es =>
      have ⟨hc, hds⟩ := List.forall_mem_cons.mp hds
      have ⟨hd, hes⟩ := List.forall_mem_cons.mp hes
      have hlen : ds.length = es.length := Nat.succ.inj hlen
      have hpos : 0 < 10 ^ es.length := Nat.pow_pos (by decide)
      have hlt := value_lt hds
      rw [value_cons, value_cons, hlen] at h
      rw [hlen] at hlt
      have hfirst : c.toNat - '0'.toNat = d.toNat - '0'.toNat := by
        have := congrArg (· / 10 ^ es.length) h
        simpa only [Nat.mul_add_div hpos, Nat.div_eq_of_lt hlt, Nat.div_eq_of_lt (value_lt hes),
          Nat.add_zero] using this
      have hchar : c = d := by
        have hzero : '0'.toNat = 48 := rfl
        have := toNat_bounds hc
        have := toNat_bounds hd
        apply Char.toNat_inj.mp
        omega
      rw [hfirst] at h
      rw [hchar, ih hds hes hlen (Nat.add_left_cancel h)]

theorem le_value (h : AreDigits (c :: ds)) (hc : c ≠ '0') : 10 ^ ds.length ≤ value (c :: ds) := by
  have hpos : 1 ≤ c.toNat - '0'.toNat := by
    have hzero : '0'.toNat = 48 := rfl
    have hne : c.toNat ≠ '0'.toNat := fun heq => hc (Char.toNat_inj.mp heq)
    have := toNat_bounds (h c List.mem_cons_self)
    omega
  calc 10 ^ ds.length
      = 10 ^ ds.length * 1 := (Nat.mul_one _).symm
    _ ≤ 10 ^ ds.length * (c.toNat - '0'.toNat) := Nat.mul_le_mul_left _ hpos
    _ ≤ value (c :: ds) := by rw [value_cons]; exact Nat.le_add_right _ _

theorem toDigits_value (h : AreDigits (c :: ds)) (hc : c ≠ '0') :
    Nat.toDigits 10 (value (c :: ds)) = c :: ds := by
  have hle : (Nat.toDigits 10 (value (c :: ds))).length ≤ ds.length + 1 :=
    (Nat.length_toDigits_le_iff (by decide) (Nat.succ_pos _)).mpr (value_lt h)
  have hge : ds.length + 1 ≤ (Nat.toDigits 10 (value (c :: ds))).length := by
    by_contra hlt
    have hpos : 0 < (Nat.toDigits 10 (value (c :: ds))).length := Nat.length_toDigits_pos
    have hle : (Nat.toDigits 10 (value (c :: ds))).length ≤ ds.length := by omega
    have := (Nat.length_toDigits_le_iff (by decide) (by omega)).mp hle
    have := le_value h hc
    omega
  exact value_inj (areDigits_toDigits _) h (Nat.le_antisymm hle hge) (value_toDigits _)

/-- A number has no zero in front, unless it is zero. -/
theorem head?_toDigits {n : Nat} (h : n ≠ 0) : (Nat.toDigits 10 n).head? ≠ some '0' := by
  induction n using Nat.strongRecOn with
  | ind n ih =>
    by_cases hn : n < 10
    · have hdigit : ∀ d < 10, d ≠ 0 → d.digitChar ≠ '0' := by decide
      rw [Nat.toDigits_of_lt_base hn]
      exact fun heq => hdigit n hn h (Option.some.inj heq)
    · rw [Nat.toDigits_of_base_le (by decide) (Nat.not_lt.mp hn),
        List.head?_append_of_ne_nil _ Nat.toDigits_ne_nil]
      exact ih (n / 10) (by omega) (by omega)

end Sidecar.Digits
