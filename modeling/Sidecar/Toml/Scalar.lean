/-! Numbers and points in time as TOML spells them. -/

namespace Sidecar.Toml

def digitValue (c : Char) : Nat :=
  if c.isDigit then c.toNat - '0'.toNat
  else if 'a' ≤ c then c.toNat - 'a'.toNat + 10
  else c.toNat - 'A'.toNat + 10

def isHexDigit (c : Char) : Bool :=
  c.isDigit || decide ('a' ≤ c ∧ c ≤ 'f') || decide ('A' ≤ c ∧ c ≤ 'F')

def isOctalDigit (c : Char) : Bool := decide ('0' ≤ c ∧ c ≤ '7')

def isBinaryDigit (c : Char) : Bool := c == '0' || c == '1'

/-- Digits of one kind, single underscores between them left out. -/
def digits? (isDigit : Char → Bool) : List Char → Option (List Char × List Char)
  | [] => none
  | c :: rest =>
    if isDigit c then
      match rest with
      | '_' :: more => (digits? isDigit more).map fun (ds, rest) => (c :: ds, rest)
      | d :: more =>
        if isDigit d then (digits? isDigit (d :: more)).map fun (ds, rest) => (c :: ds, rest)
        else some ([c], d :: more)
      | [] => some ([c], [])
    else none

def valueOf (base : Nat) (ds : List Char) : Nat :=
  ds.foldl (fun n d => base * n + digitValue d) 0

/-- A sign, negative or not, which may be missing. -/
def sign : List Char → Bool × List Char
  | '-' :: rest => (true, rest)
  | '+' :: rest => (false, rest)
  | cs => (false, cs)

/-- Decimal digits that do not start with a zero, or a zero on its own. -/
def whole? : List Char → Option (List Char × List Char)
  | '0' :: rest => some (['0'], rest)
  | cs => digits? Char.isDigit cs

def fitsInteger (n : Int) : Bool :=
  decide (-0x8000000000000000 ≤ n ∧ n < 0x8000000000000000)

def integerIn? (base : Nat) (isDigit : Char → Bool) (cs : List Char) :
    Option (Int × List Char) := do
  let (ds, rest) ← digits? isDigit cs
  let n : Int := valueOf base ds
  if fitsInteger n then some (n, rest) else none

def integer? : List Char → Option (Int × List Char)
  | '0' :: 'x' :: rest => integerIn? 16 isHexDigit rest
  | '0' :: 'o' :: rest => integerIn? 8 isOctalDigit rest
  | '0' :: 'b' :: rest => integerIn? 2 isBinaryDigit rest
  | cs => do
    let (negative, cs) := sign cs
    let (ds, rest) ← whole? cs
    let size : Int := valueOf 10 ds
    let n := if negative then -size else size
    if fitsInteger n then some (n, rest) else none

def exponent? : List Char → Option (Int × List Char)
  | e :: rest => do
    if e ≠ 'e' ∧ e ≠ 'E' then none
    let (negative, rest) := sign rest
    let (ds, rest) ← digits? Char.isDigit rest
    let n : Int := valueOf 10 ds
    some (if negative then -n else n, rest)
  | [] => none

/-- The least number that is rounded beyond the doubles. -/
def doubleBound : Nat := Nat.pow 2 1024 - Nat.pow 2 970

/-- A number `m * 10 ^ e` that lies beyond the doubles. The exponents in between are the only ones
that need the exact comparison with the least such number. -/
def exceedsDoubles (m : Nat) (e : Int) : Bool :=
  let size : Int := (toString m).length + e
  if m = 0 ∨ size < 309 then false
  else if 310 < size then true
  else if 0 ≤ e then decide (doubleBound ≤ m * Nat.pow 10 e.toNat)
  else decide (doubleBound * Nat.pow 10 (-e).toNat ≤ m)

/-- Reads a number with a fraction or an exponent, or one that is infinite or not a number. A
number that is too large is refused, unless it is negative. -/
def float? (cs : List Char) : Option (List Char) :=
  let (negative, body) := sign cs
  match body with
  | 'i' :: 'n' :: 'f' :: rest => some rest
  | 'n' :: 'a' :: 'n' :: rest => some rest
  | _ => whole? body >>= fun (whole, rest) => behind negative whole rest
where
  behind (negative : Bool) (whole : List Char) : List Char → Option (List Char)
    | '.' :: rest => do
      let (fraction, rest) ← digits? Char.isDigit rest
      let m := valueOf 10 (whole ++ fraction)
      match rest with
      | 'e' :: _ | 'E' :: _ =>
        let (e, rest) ← exponent? rest
        accept negative m (e - fraction.length) rest
      | rest => accept negative m (-(fraction.length : Int)) rest
    | rest => do
      let (e, rest) ← exponent? rest
      accept negative (valueOf 10 whole) e rest
  accept (negative : Bool) (m : Nat) (e : Int) (rest : List Char) : Option (List Char) :=
    if !negative && exceedsDoubles m e then none else some rest

/-- Exactly `n` decimal digits. -/
def number? (n : Nat) (cs : List Char) : Option (Nat × List Char) :=
  let ds := cs.take n
  if ds.length = n ∧ ds.all Char.isDigit then some (valueOf 10 ds, cs.drop n) else none

def isLeapYear (y : Nat) : Bool :=
  y % 4 == 0 && (y % 100 != 0 || y % 400 == 0)

def daysIn (y m : Nat) : Nat :=
  if m = 2 then if isLeapYear y then 29 else 28
  else if m = 4 ∨ m = 6 ∨ m = 9 ∨ m = 11 then 30
  else 31

def char? (c : Char) : List Char → Option (List Char)
  | d :: rest => if d = c then some rest else none
  | [] => none

/-- A day that is in the calendar. -/
def date? (cs : List Char) : Option (List Char) := do
  let (y, cs) ← number? 4 cs
  let (m, cs) ← number? 2 (← char? '-' cs)
  let (d, cs) ← number? 2 (← char? '-' cs)
  if 1 ≤ m ∧ m ≤ 12 ∧ 1 ≤ d ∧ d ≤ daysIn y m then some cs else none

/-- A time of day; a minute may have a leap second. -/
def time? (cs : List Char) : Option (List Char) := do
  let (h, cs) ← number? 2 cs
  let (m, cs) ← number? 2 (← char? ':' cs)
  let (s, cs) ← number? 2 (← char? ':' cs)
  if h < 24 ∧ m < 60 ∧ s ≤ 60 then
    match cs with
    | '.' :: rest =>
      let ds := rest.takeWhile Char.isDigit
      if ds = [] then none else some (rest.drop ds.length)
    | cs => some cs
  else none

def offset? : List Char → Option (List Char)
  | 'Z' :: rest | 'z' :: rest => some rest
  | c :: rest => do
    if c ≠ '+' ∧ c ≠ '-' then none
    let (h, rest) ← number? 2 rest
    let (m, rest) ← number? 2 (← char? ':' rest)
    if h < 24 ∧ m < 60 then some rest else none
  | [] => none

/-- A date, a time, or both with or without an offset. -/
def moment? (cs : List Char) : Option (List Char) :=
  match date? cs with
  | some rest =>
    match rest with
    | c :: after =>
      if c = 'T' ∨ c = 't' ∨ c = ' ' then
        match time? after with
        | some rest => some ((offset? rest).getD rest)
        | none => some (c :: after)
      else some (c :: after)
    | [] => some []
  | none => time? cs

end Sidecar.Toml
