/-! The fewest decimal digits that read back as a binary number, and of those the nearest. -/

namespace Sidecar.Decimal

/-- A positive number `digits * 10 ^ exponent`. -/
structure Scaled where
  digits : Nat
  exponent : Int
  deriving DecidableEq, Repr

structure Ratio where
  num : Nat
  den : Nat

namespace Ratio

def scaleTwo (m : Nat) (q : Int) : Ratio :=
  if 0 ≤ q then ⟨m * Nat.pow 2 q.toNat, 1⟩ else ⟨m, Nat.pow 2 (-q).toNat⟩

def scaleTen (m : Nat) (k : Int) : Ratio :=
  if 0 ≤ k then ⟨m * Nat.pow 10 k.toNat, 1⟩ else ⟨m, Nat.pow 10 (-k).toNat⟩

def le (a b : Ratio) : Bool :=
  decide (a.num * b.den ≤ b.num * a.den)

def lt (a b : Ratio) : Bool :=
  decide (a.num * b.den < b.num * a.den)

def floorDiv (a b : Ratio) : Nat :=
  (a.num * b.den) / (a.den * b.num)

end Ratio

/-- A number `significand * 2 ^ exponent` of some binary format, with the ends of the interval of
numbers that round to it; the ends round to it when the significand is even. -/
structure Binary where
  significand : Nat
  exponent : Int
  /-- The next number below is only half as far as the next above. -/
  closeBelow : Bool

namespace Binary

def value (b : Binary) : Ratio :=
  .scaleTwo b.significand b.exponent

def lower (b : Binary) : Ratio :=
  if b.closeBelow then .scaleTwo (4 * b.significand - 1) (b.exponent - 2)
  else .scaleTwo (2 * b.significand - 1) (b.exponent - 1)

def upper (b : Binary) : Ratio :=
  .scaleTwo (2 * b.significand + 1) (b.exponent - 1)

def readsBack (b : Binary) (s : Scaled) : Bool :=
  let r := Ratio.scaleTen s.digits s.exponent
  if b.significand % 2 = 0 then b.lower.le r && r.le b.upper
  else b.lower.lt r && r.lt b.upper

/-- The power of ten of the first digit. -/
def magnitude (b : Binary) : Int :=
  let v := b.value
  let estimate : Int := (Nat.log2 v.num - Nat.log2 v.den : Int) * 30103 / 100000
  let candidates := [estimate + 2, estimate + 1, estimate, estimate - 1, estimate - 2]
  (candidates.find? fun k => (Ratio.scaleTen 1 k).le v).getD (estimate - 2)

/-- The better of the two neighbours on the grid of numbers with `n` digits, if one reads back. -/
def onGrid? (b : Binary) (n : Nat) : Option Scaled :=
  let k := b.magnitude + 1 - n
  let down := b.value.floorDiv (.scaleTen 1 k)
  let below : Scaled := ⟨down, k⟩
  let above : Scaled := ⟨down + 1, k⟩
  match b.readsBack below && down != 0, b.readsBack above with
  | true, true =>
    let twice : Ratio := ⟨2 * b.value.num, b.value.den⟩
    let middle := Ratio.scaleTen (2 * down + 1) k
    some (if twice.lt middle || twice.le middle && down % 2 == 0 then below else above)
  | true, false => some below
  | false, true => some above
  | false, false => none

/-- Seventeen digits always suffice for a double. -/
def shortest (b : Binary) : Scaled :=
  ((List.range 17).findSome? fun i => b.onGrid? (i + 1)).getD ⟨b.significand, 0⟩

end Binary

/-- The significand and exponent of a finite double other than zero, its sign aside. -/
def Binary.ofFloat (x : Float) : Binary :=
  let bits := x.toBits.toNat
  let fraction := bits % Nat.pow 2 52
  let biased := bits / Nat.pow 2 52 % Nat.pow 2 11
  if biased = 0 then ⟨fraction, -1074, false⟩
  else ⟨Nat.pow 2 52 + fraction, Int.ofNat biased - 1075, decide (fraction = 0 ∧ 1 < biased)⟩

/-- The exponents of the first digit for which positional notation is used. -/
structure Style where
  leastPositional : Int
  greatestPositional : Int

def withoutTrailingZeros (s : Scaled) : Scaled :=
  let cs := (toString s.digits).toList
  let zeros := (cs.reverse.takeWhile (· == '0')).length
  ⟨s.digits / Nat.pow 10 zeros, s.exponent + zeros⟩

/-- The text of a positive number: digits around a point, or one digit before the point and a
signed exponent. -/
def Style.text (w : Style) (s : Scaled) : String :=
  let s := withoutTrailingZeros s
  let ds := toString s.digits
  let n : Int := ds.length
  let first := s.exponent + n - 1
  let zeros (k : Int) := String.ofList (List.replicate k.toNat '0')
  if w.leastPositional ≤ first ∧ first ≤ w.greatestPositional then
    if 0 ≤ s.exponent then ds ++ zeros s.exponent ++ ".0"
    else if 0 ≤ first then
      String.ofList (ds.toList.take (first + 1).toNat) ++ "." ++
        String.ofList (ds.toList.drop (first + 1).toNat)
    else "0." ++ zeros (-first - 1) ++ ds
  else
    let point := if ds.length = 1 then "" else "."
    String.ofList (ds.toList.take 1) ++ point ++ String.ofList (ds.toList.drop 1) ++ "e" ++
      (if first < 0 then "-" else "+") ++ toString first.natAbs

def Style.floatText (w : Style) (x : Float) : String :=
  let sign := if x.toBits.toNat / Nat.pow 2 63 = 1 then "-" else ""
  sign ++ if x == 0 then "0.0" else w.text (Binary.ofFloat x).shortest

end Sidecar.Decimal
