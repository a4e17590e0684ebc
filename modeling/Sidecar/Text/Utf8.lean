/-! Text in bytes. Any bytes can be read as text: those that open a character without completing
it, and those that open none, are read as U+FFFD. The bytes of a text are read as that text. -/

namespace Sidecar.Text

def utf8 (s : String) : List UInt8 :=
  s.toList.flatMap String.utf8EncodeChar

/-- A character of several bytes whose last bytes are still to come. -/
structure Unfinished where
  /-- What the bytes so far come to. -/
  code : Nat
  missing : Nat
  /-- The bounds of the next byte. -/
  least : Nat
  greatest : Nat

/-- What a byte opens. The bounds keep out long forms of short characters, surrogates and all beyond
U+10FFFF. -/
def Unfinished.ofFirst? (b : Nat) : Option Unfinished :=
  if 0xc2 ≤ b ∧ b < 0xe0 then some ⟨b - 0xc0, 1, 0x80, 0xbf⟩
  else if 0xe0 ≤ b ∧ b < 0xf0 then
    some ⟨b - 0xe0, 2, if b = 0xe0 then 0xa0 else 0x80, if b = 0xed then 0x9f else 0xbf⟩
  else if 0xf0 ≤ b ∧ b < 0xf5 then
    some ⟨b - 0xf0, 3, if b = 0xf0 then 0x90 else 0x80, if b = 0xf4 then 0x8f else 0xbf⟩
  else none

/-- Stands for bytes that are no character. -/
def replacement : Char := '\ufffd'

def decodeFirst (b : Nat) : List Char × Option Unfinished :=
  if b < 0x80 then ([Char.ofNat b], none)
  else match Unfinished.ofFirst? b with
    | some u => ([], some u)
    | none => ([replacement], none)

/-- The characters that a byte settles, and the one that it leaves unfinished. -/
def decodeNext : Option Unfinished → Nat → List Char × Option Unfinished
  | none, b => decodeFirst b
  | some u, b =>
    if u.least ≤ b ∧ b ≤ u.greatest then
      let code := u.code * 64 + (b - 0x80)
      if u.missing = 1 then ([Char.ofNat code], none)
      else ([], some ⟨code, u.missing - 1, 0x80, 0xbf⟩)
    else (replacement :: (decodeFirst b).1, (decodeFirst b).2)

def decodeFrom (u : Option Unfinished) : List UInt8 → List Char
  | [] => if u.isSome then [replacement] else []
  | b :: rest => (decodeNext u b.toNat).1 ++ decodeFrom (decodeNext u b.toNat).2 rest

def decode (bytes : List UInt8) : String :=
  String.ofList (decodeFrom none bytes)

end Sidecar.Text
