/-! Strings as JSON spells them. A `\u` escape names a UTF-16 unit, so a character beyond the basic
plane takes two; a surrogate that stands alone names no character. -/

namespace Sidecar.Json

/-- A character written as itself or by a short escape, or a UTF-16 unit. -/
inductive Piece where
  | char (c : Char)
  | unit (value : Nat)
  deriving DecidableEq, Repr

def hexValue? (c : Char) : Option Nat :=
  if c.isDigit then some (c.toNat - '0'.toNat)
  else if 'a' ≤ c ∧ c ≤ 'f' then some (c.toNat - 'a'.toNat + 10)
  else if 'A' ≤ c ∧ c ≤ 'F' then some (c.toNat - 'A'.toNat + 10)
  else none

def unitOf? (a b c d : Char) : Option Nat := do
  return (((← hexValue? a) * 16 + (← hexValue? b)) * 16 + (← hexValue? c)) * 16 + (← hexValue? d)

/-- The character that a backslash and `c` stand for. -/
def shortEscape? : Char → Option Char
  | '"' => some '"'
  | '\\' => some '\\'
  | '/' => some '/'
  | 'b' => some '\x08'
  | 'f' => some '\x0c'
  | 'n' => some '\n'
  | 'r' => some '\r'
  | 't' => some '\t'
  | _ => none

/-- Reads what stands behind an opening quote, through the closing one. -/
def scanText : List Char → Option (List Piece × List Char)
  | '"' :: rest => some ([], rest)
  | '\\' :: 'u' :: a :: b :: c :: d :: rest => do
    let value ← unitOf? a b c d
    let (pieces, rest) ← scanText rest
    return (.unit value :: pieces, rest)
  | '\\' :: e :: rest => do
    let c ← shortEscape? e
    let (pieces, rest) ← scanText rest
    return (.char c :: pieces, rest)
  | c :: rest => do
    if c = '\\' ∨ c.toNat < 0x20 then none
    let (pieces, rest) ← scanText rest
    return (.char c :: pieces, rest)
  | [] => none

def isHighSurrogate (u : Nat) : Bool := decide (0xD800 ≤ u ∧ u ≤ 0xDBFF)

def isLowSurrogate (u : Nat) : Bool := decide (0xDC00 ≤ u ∧ u ≤ 0xDFFF)

/-- The characters that pieces spell; a high surrogate needs a low one right behind it. -/
def decode? : List Piece → Option (List Char)
  | [] => some []
  | .char c :: rest => (decode? rest).map (c :: ·)
  | .unit u :: rest =>
    if isLowSurrogate u then none
    else if isHighSurrogate u then
      match rest with
      | .unit v :: rest =>
        if isLowSurrogate v then
          (decode? rest).map (Char.ofNat (0x10000 + (u - 0xD800) * 0x400 + (v - 0xDC00)) :: ·)
        else none
      | _ => none
    else (decode? rest).map (Char.ofNat u :: ·)

def hexDigit (n : Nat) : Char :=
  if n < 10 then Char.ofNat ('0'.toNat + n) else Char.ofNat ('a'.toNat + (n - 10))

/-- How a character is written: the quote, the backslash and control characters are escaped, with
a short escape where there is one, and all else stands as it is. -/
def escapeChar (c : Char) : List Char :=
  if c = '"' then ['\\', '"']
  else if c = '\\' then ['\\', '\\']
  else if c = '\x08' then ['\\', 'b']
  else if c = '\x0c' then ['\\', 'f']
  else if c = '\n' then ['\\', 'n']
  else if c = '\r' then ['\\', 'r']
  else if c = '\t' then ['\\', 't']
  else if c.toNat < 0x20 then
    ['\\', 'u', '0', '0', hexDigit (c.toNat / 16), hexDigit (c.toNat % 16)]
  else [c]

def quote (cs : List Char) : List Char :=
  '"' :: cs.flatMap escapeChar ++ ['"']

end Sidecar.Json
