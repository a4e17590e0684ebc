/-! Numbers as JSON spells them: no leading zeros, and digits on both sides of a point. -/

namespace Sidecar.Json

structure Numeral where
  negative : Bool
  whole : List Char
  /-- The digits behind the point, if there is one. -/
  fraction : Option (List Char)
  /-- The sign (negative or not) and the digits of the exponent, if there is one. -/
  exponent : Option (Bool × List Char)
  deriving DecidableEq, Repr

def digitsOf (cs : List Char) : Option (List Char × List Char) :=
  let ds := cs.takeWhile Char.isDigit
  if ds = [] then none else some (ds, cs.dropWhile Char.isDigit)

/-- A zero on its own, or digits that do not start with one. -/
def scanWhole (cs : List Char) : Option (List Char × List Char) := do
  let (ds, rest) ← digitsOf cs
  if ds.head? = some '0' ∧ ds.length ≠ 1 then none
  return (ds, rest)

def scanFraction : List Char → Option (Option (List Char) × List Char)
  | '.' :: cs => (digitsOf cs).map fun (ds, rest) => (some ds, rest)
  | cs => some (none, cs)

def scanExponent : List Char → Option (Option (Bool × List Char) × List Char)
  | [] => some (none, [])
  | e :: cs =>
    if e = 'e' ∨ e = 'E' then
      match cs with
      | '-' :: cs => (digitsOf cs).map fun (ds, rest) => (some (true, ds), rest)
      | '+' :: cs => (digitsOf cs).map fun (ds, rest) => (some (false, ds), rest)
      | cs => (digitsOf cs).map fun (ds, rest) => (some (false, ds), rest)
    else some (none, e :: cs)

def scanNumeral (cs : List Char) : Option (Numeral × List Char) := do
  let (negative, cs) := match cs with
    | '-' :: cs => (true, cs)
    | cs => (false, cs)
  let (whole, cs) ← scanWhole cs
  let (fraction, cs) ← scanFraction cs
  let (exponent, cs) ← scanExponent cs
  return (⟨negative, whole, fraction, exponent⟩, cs)

def natOfDigits (ds : List Char) : Nat :=
  ds.foldl (fun n d => 10 * n + (d.toNat - '0'.toNat)) 0

namespace Numeral

def isInteger (n : Numeral) : Bool :=
  n.fraction.isNone && n.exponent.isNone

/-- The value of a numeral without fraction and exponent. -/
def toInt (n : Numeral) : Int :=
  if n.negative then -(natOfDigits n.whole : Int) else natOfDigits n.whole

end Numeral

end Sidecar.Json
