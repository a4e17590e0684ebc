import Sidecar.Digest.Sha256

/-! The digest of what a sequence of reads delivers. A read that was interrupted is tried again, one
that brings nothing is the end, and any other failure ends the digest. -/

namespace Sidecar.Digest

inductive Read (ε : Type) where
  | piece (bytes : Bytes)
  | interrupted
  | failed (cause : ε)

/-- Bytes that one read may bring. -/
def pieceLimit : Nat := 1024 * 1024

def ofReads {ε : Type} (h : Hasher) : List (Read ε) → Except ε String
  | [] => .ok h.finish
  | .piece [] :: _ => .ok h.finish
  | .piece (b :: bs) :: rest => ofReads (h.update (b :: bs)) rest
  | .interrupted :: rest => ofReads h rest
  | .failed cause :: _ => .error cause

/-- The reads of a file that always brings as much as it may. -/
def fullReads {ε : Type} (content : Bytes) : List (Read ε) :=
  if content = [] then [.piece []]
  else .piece (content.take pieceLimit) :: fullReads (content.drop pieceLimit)
  termination_by content.length
  decreasing_by
    have : 0 < content.length := List.length_pos_iff.mpr ‹_›
    simp only [List.length_drop, pieceLimit]
    omega

end Sidecar.Digest
