/-! SHA-256. A message is padded to whole blocks of 64 bytes, and each block is mixed into a state
of eight words. The digest of a message in pieces keeps what does not fill a block yet. -/

namespace Sidecar.Digest

abbrev Bytes := List UInt8

structure State where
  (a b c d e f g h : UInt32)
  deriving DecidableEq, Repr

namespace State

/-- The fractional parts of the square roots of the first eight primes. -/
def initial : State :=
  ⟨0x6a09e667, 0xbb67ae85, 0x3c6ef372, 0xa54ff53a,
    0x510e527f, 0x9b05688c, 0x1f83d9ab, 0x5be0cd19⟩

def add (s t : State) : State :=
  ⟨s.a + t.a, s.b + t.b, s.c + t.c, s.d + t.d, s.e + t.e, s.f + t.f, s.g + t.g, s.h + t.h⟩

def words (s : State) : List UInt32 :=
  [s.a, s.b, s.c, s.d, s.e, s.f, s.g, s.h]

end State

/-- The fractional parts of the cube roots of the first 64 primes. -/
def roundConstants : List UInt32 := [
    0x428a2f98, 0x71374491, 0xb5c0fbcf, 0xe9b5dba5, 0x3956c25b, 0x59f111f1,
    0x923f82a4, 0xab1c5ed5, 0xd807aa98, 0x12835b01, 0x243185be, 0x550c7dc3,
    0x72be5d74, 0x80deb1fe, 0x9bdc06a7, 0xc19bf174, 0xe49b69c1, 0xefbe4786,
    0x0fc19dc6, 0x240ca1cc, 0x2de92c6f, 0x4a7484aa, 0x5cb0a9dc, 0x76f988da,
    0x983e5152, 0xa831c66d, 0xb00327c8, 0xbf597fc7, 0xc6e00bf3, 0xd5a79147,
    0x06ca6351, 0x14292967, 0x27b70a85, 0x2e1b2138, 0x4d2c6dfc, 0x53380d13,
    0x650a7354, 0x766a0abb, 0x81c2c92e, 0x92722c85, 0xa2bfe8a1, 0xa81a664b,
    0xc24b8b70, 0xc76c51a3, 0xd192e819, 0xd6990624, 0xf40e3585, 0x106aa070,
    0x19a4c116, 0x1e376c08, 0x2748774c, 0x34b0bcb5, 0x391c0cb3, 0x4ed8aa4a,
    0x5b9cca4f, 0x682e6ff3, 0x748f82ee, 0x78a5636f, 0x84c87814, 0x8cc70208,
    0x90befffa, 0xa4506ceb, 0xbef9a3f7, 0xc67178f2
  ]

def rotateRight (x : UInt32) (n : UInt32) : UInt32 :=
  (x >>> n) ||| (x <<< (32 - n))

def wordOf (a b c d : UInt8) : UInt32 :=
  (a.toUInt32 <<< 24) ||| (b.toUInt32 <<< 16) ||| (c.toUInt32 <<< 8) ||| d.toUInt32

/-- Words of four bytes, the first byte the highest. -/
def wordsOf : Bytes → List UInt32
  | a :: b :: c :: d :: rest => wordOf a b c d :: wordsOf rest
  | _ => []

/-- Extends a schedule by `n` words; the newest word comes first. -/
def extend : Nat → List UInt32 → List UInt32
  | 0, ws => ws
  | n + 1, ws =>
    let x := ws.getD 14 0
    let y := ws.getD 1 0
    let s0 := rotateRight x 7 ^^^ rotateRight x 18 ^^^ (x >>> 3)
    let s1 := rotateRight y 17 ^^^ rotateRight y 19 ^^^ (y >>> 10)
    extend n ((ws.getD 15 0 + s0 + ws.getD 6 0 + s1) :: ws)

def schedule (block : Bytes) : List UInt32 :=
  (extend 48 (wordsOf block).reverse).reverse

def round (s : State) (kw : UInt32 × UInt32) : State :=
  let s1 := rotateRight s.e 6 ^^^ rotateRight s.e 11 ^^^ rotateRight s.e 25
  let choice := (s.e &&& s.f) ^^^ ((~~~ s.e) &&& s.g)
  let t1 := s.h + s1 + choice + kw.1 + kw.2
  let s0 := rotateRight s.a 2 ^^^ rotateRight s.a 13 ^^^ rotateRight s.a 22
  let majority := (s.a &&& s.b) ^^^ (s.a &&& s.c) ^^^ (s.b &&& s.c)
  ⟨t1 + (s0 + majority), s.a, s.b, s.c, s.d + t1, s.e, s.f, s.g⟩

/-- Mixes a block into a state. -/
def compress (s : State) (block : Bytes) : State :=
  s.add ((roundConstants.zip (schedule block)).foldl round s)

def blockSize : Nat := 64

def bigEndian (size n : Nat) : Bytes :=
  (List.range size).map fun i => UInt8.ofNat (n >>> (8 * (size - 1 - i)))

/-- What stands behind a message of `length` bytes: a one bit, zeros up to whole blocks, and the
length in bits. -/
def padding (length : Nat) : Bytes :=
  0x80 :: List.replicate ((119 - length % 64) % 64) 0 ++ bigEndian 8 (8 * length)

/-- The whole blocks of a list of bytes. -/
def blocks (bs : Bytes) : List Bytes :=
  if _full : (bs.take blockSize).length = blockSize then
    bs.take blockSize :: blocks (bs.drop blockSize)
  else []
  termination_by bs.length
  decreasing_by
    simp only [List.length_take, blockSize, List.length_drop] at _full ⊢
    omega

def wordBytes (w : UInt32) : Bytes :=
  bigEndian 4 w.toNat

def hexDigit (n : Nat) : Char :=
  if n < 10 then Char.ofNat ('0'.toNat + n) else Char.ofNat ('a'.toNat + (n - 10))

/-- Two lowercase digits a byte. -/
def hex (bs : Bytes) : String :=
  String.ofList (bs.flatMap fun b => [hexDigit (b.toNat / 16), hexDigit (b.toNat % 16)])

def State.hex (s : State) : String :=
  Digest.hex (s.words.flatMap wordBytes)

/-- The SHA-256 of a message, in hexadecimal. -/
def sha256 (message : Bytes) : String :=
  ((blocks (message ++ padding message.length)).foldl compress .initial).hex

/-- A digest under way: the state after the whole blocks so far, the bytes behind them, and how
many bytes there were in all. -/
structure Hasher where
  state : State
  pending : Bytes
  length : Nat

namespace Hasher

def new : Hasher :=
  ⟨.initial, [], 0⟩

/-- Mixes in the whole blocks and leaves the rest. -/
def absorb (s : State) (bs : Bytes) : State × Bytes :=
  if _full : (bs.take blockSize).length = blockSize then
    absorb (compress s (bs.take blockSize)) (bs.drop blockSize)
  else (s, bs)
  termination_by bs.length
  decreasing_by
    simp only [List.length_take, blockSize, List.length_drop] at _full ⊢
    omega

def update (h : Hasher) (piece : Bytes) : Hasher :=
  let (state, pending) := absorb h.state (h.pending ++ piece)
  ⟨state, pending, h.length + piece.length⟩

def finish (h : Hasher) : String :=
  (absorb h.state (h.pending ++ padding h.length)).1.hex

end Hasher

end Sidecar.Digest
