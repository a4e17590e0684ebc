import Sidecar.Decimal.Shortest
import Sidecar.Json.Number

/-! What a numeral is worth to a reader of numbers: an integer of 64 bits, or else a double, which
is computed from as many leading digits as fit in 64 bits and one scaling by a power of ten. -/

namespace Sidecar.Json

inductive Scalar where
  | unsigned (n : Nat)
  | negative (n : Int)
  | double (x : Float)

/-- Takes digits as long as the number stays below `2 ^ 64`; what is left over comes second. -/
def takeDigits (n : Nat) : List Char → Nat × List Char
  | [] => (n, [])
  | d :: ds =>
    let next := 10 * n + (d.toNat - '0'.toNat)
    if next < 0x10000000000000000 then takeDigits next ds else (n, d :: ds)

def tenTo (n : Nat) : Float :=
  Float.ofScientific 1 false n

/-- `x * 10 ^ e`, in steps of powers that a double can hold; none where it is too large. -/
def scaled? (fuel : Nat) (x : Float) (e : Int) : Option Float :=
  if e.natAbs ≤ 308 then
    if 0 ≤ e then
      let y := x * tenTo e.natAbs
      if y.isInf then none else some y
    else some (x / tenTo e.natAbs)
  else if x == 0 then some x
  else if 0 ≤ e then none
  else match fuel with
    | 0 => some 0
    | fuel + 1 => scaled? fuel (x / tenTo 308) (e + 308)

namespace Numeral

/-- The significand and the power of ten that the digits give. -/
def significand (n : Numeral) : Nat × Int :=
  let (s, past) := takeDigits 0 n.whole
  let digits := n.fraction.getD []
  let (s, left) := takeDigits s digits
  (s, (past.length : Int) - (digits.length - left.length : Nat))

/-- Exponents from here on are taken for endless. -/
def exponentBound : Nat := 0x80000000

/-- The double that a numeral is read as; none where it is out of range. -/
def double? (n : Numeral) : Option Float :=
  let (s, e) := n.significand
  let signed (x : Float) := if n.negative then -x else x
  match n.exponent with
  | none => (scaled? 8 (Float.ofNat s) e).map signed
  | some (negative, ds) =>
    let size := natOfDigits ds
    if exponentBound ≤ size then
      if s ≠ 0 ∧ !negative then none else some (signed 0)
    else
      (scaled? 8 (Float.ofNat s) (if negative then e - size else e + size)).map signed

/-- What a numeral is read as: a whole number where it is below `2 ^ 64` and, if it is negative, at
least `-2 ^ 63`, else a double. -/
def scalar? (n : Numeral) : Option Scalar :=
  if n.isInteger then
    let size := natOfDigits n.whole
    if n.negative then
      if 0 < size ∧ size ≤ 0x8000000000000000 then some (.negative (-size))
      else n.double?.map .double
    else if size < 0x10000000000000000 then some (.unsigned size)
    else n.double?.map .double
  else n.double?.map .double

end Numeral

/-- Doubles are shown positionally from `0.00001` up to sixteen digits before the point. -/
def realStyle : Decimal.Style := ⟨-5, 15⟩

def Scalar.describe : Scalar → String
  | .unsigned n => "integer `" ++ toString n ++ "`"
  | .negative n => "integer `" ++ toString n ++ "`"
  | .double x => "floating point `" ++ realStyle.floatText x ++ "`"

end Sidecar.Json
