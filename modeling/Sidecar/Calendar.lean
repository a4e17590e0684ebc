import Sidecar.Text.Pieces

/-! Days of the Gregorian calendar and the one way in which a day is written. A day is read
leniently and then has to be written just as it was read. -/

namespace Sidecar.Calendar

structure Day where
  year : Int
  month : Nat
  day : Nat
  deriving DecidableEq, Repr

def isLeapYear (y : Int) : Bool :=
  y % 4 == 0 && (y % 100 != 0 || y % 400 == 0)

def daysInMonth (y : Int) (m : Nat) : Nat :=
  if m = 2 then if isLeapYear y then 29 else 28
  else if m = 4 ∨ m = 6 ∨ m = 9 ∨ m = 11 then 30
  else 31

def leastYear : Int := -262143
def greatestYear : Int := 262142

/-- A day that there is, in a year that can be counted. -/
def Day.IsReal (d : Day) : Prop :=
  leastYear ≤ d.year ∧ d.year ≤ greatestYear ∧ 1 ≤ d.month ∧ d.month ≤ 12 ∧
    1 ≤ d.day ∧ d.day ≤ daysInMonth d.year d.month

instance (d : Day) : Decidable d.IsReal :=
  inferInstanceAs (Decidable (_ ∧ _))

inductive DayError where
  | outOfRange
  | invalidCharacters
  | tooShort
  | tooLong
  deriving DecidableEq, Repr

def DayError.message : DayError → String
  | .outOfRange => "input is out of range"
  | .invalidCharacters => "input contains invalid characters"
  | .tooShort => "premature end of input"
  | .tooLong => "trailing input"

def isBlank (c : Char) : Bool :=
  let n := c.toNat
  decide (9 ≤ n ∧ n ≤ 13) || n == 0x20 || n == 0x85 || n == 0xa0 || n == 0x1680 ||
    decide (0x2000 ≤ n ∧ n ≤ 0x200a) || n == 0x2028 || n == 0x2029 || n == 0x202f ||
    n == 0x205f || n == 0x3000

/-- Adds digits to a number, which has to stay below `2 ^ 63`. -/
def addDigits (n : Nat) : List Char → Except DayError Nat
  | [] => .ok n
  | d :: ds =>
    let next := 10 * n + (d.toNat - '0'.toNat)
    if next < 0x8000000000000000 then addDigits next ds else .error .outOfRange

/-- Reads the digits that come next, at least one and at most `limit`. -/
def readNumber (limit : Option Nat) (cs : List Char) : Except DayError (Nat × List Char) :=
  let digits := cs.takeWhile Char.isDigit
  let digits := match limit with
    | some n => digits.take n
    | none => digits
  if cs = [] then .error .tooShort
  else if digits = [] then .error .invalidCharacters
  else (addDigits 0 digits).map (·, cs.drop digits.length)

/-- Reads a year: four digits at most, or any number of them behind a sign. -/
def readYear (cs : List Char) : Except DayError (Int × List Char) := do
  let (n, rest) ← match cs with
    | '-' :: cs => (readNumber none cs).map fun (n, rest) => (-(n : Int), rest)
    | '+' :: cs => (readNumber none cs).map fun (n, rest) => ((n : Int), rest)
    | cs => (readNumber (some 4) cs).map fun (n, rest) => ((n : Int), rest)
  if -0x80000000 ≤ n ∧ n < 0x80000000 then .ok (n, rest) else .error .outOfRange

def readWithin (least greatest : Nat) (cs : List Char) : Except DayError (Nat × List Char) := do
  let (n, rest) ← readNumber (some 2) cs
  if least ≤ n ∧ n ≤ greatest then .ok (n, rest) else .error .outOfRange

def readHyphen : List Char → Except DayError (List Char)
  | [] => .error .tooShort
  | c :: cs => if c = '-' then .ok cs else .error .invalidCharacters

/-- Reads a day, blanks before its numbers passed over. -/
def readDay (cs : List Char) : Except DayError Day := do
  let (year, cs) ← readYear (cs.dropWhile isBlank)
  let cs ← readHyphen cs
  let (month, cs) ← readWithin 1 12 (cs.dropWhile isBlank)
  let cs ← readHyphen cs
  let (day, cs) ← readWithin 1 31 (cs.dropWhile isBlank)
  if cs ≠ [] then .error .tooLong
  else
    let d : Day := ⟨year, month, day⟩
    if d.IsReal then .ok d else .error .outOfRange

def padded (size n : Nat) : List Char :=
  let ds := (toString n).toList
  List.replicate (size - ds.length) '0' ++ ds

/-- Four digits for a year from 0 to 9999; any other year has a sign. -/
def yearText (y : Int) : List Char :=
  if 0 ≤ y ∧ y ≤ 9999 then padded 4 y.toNat
  else (if y < 0 then '-' else '+') :: padded 4 y.natAbs

def Day.text (d : Day) : List Char :=
  yearText d.year ++ '-' :: padded 2 d.month ++ '-' :: padded 2 d.day

inductive DateError where
  | unreadable (text : String) (problem : DayError)
  | otherSpelling (text : String)
  deriving DecidableEq, Repr

def DateError.message : DateError → String
  | .unreadable text problem => "'" ++ text ++ "' is not a valid date: " ++ problem.message
  | .otherSpelling text => "'" ++ text ++ "' must be written as YYYY-MM-DD"

/-- Accepts a text that reads as a day and is how that day is written. -/
def checkDate (s : String) : Except DateError String :=
  match readDay s.toList with
  | .error e => .error (.unreadable s e)
  | .ok d => if d.text = s.toList then .ok s else .error (.otherSpelling s)

end Sidecar.Calendar
