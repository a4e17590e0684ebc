import Sidecar.Path
import Sidecar.Text.Utf8

/-! Paths in bytes, as the operating system has them. A name there need not be text. Where text is
asked for such a path is shown, and then two paths can look alike. -/

namespace Sidecar

structure BytePath where
  bytes : List UInt8
  deriving DecidableEq, Repr

/-- A path that is text is one in bytes too. -/
def Path.inBytes (p : Path) : BytePath :=
  ⟨Text.utf8 p.text⟩

instance : Coe Path BytePath :=
  ⟨Path.inBytes⟩

namespace BytePath

/-- A text with one character for each byte, whatever that stands for. -/
def spell (bytes : List UInt8) : String :=
  String.ofList (bytes.map fun b => Char.ofNat b.toNat)

def unspell (s : String) : List UInt8 :=
  s.toList.map fun c => UInt8.ofNat c.toNat

/-- The path spelled so. Slashes and dots are where they are in the bytes, and so are the parts. -/
def spelled (p : BytePath) : Path :=
  ⟨spell p.bytes⟩

/-- The path as messages and patterns have it. -/
def shown (p : BytePath) : Path :=
  ⟨Text.decode p.bytes⟩

def Same (p q : BytePath) : Prop :=
  p.spelled.Same q.spelled

instance (p q : BytePath) : Decidable (p.Same q) :=
  inferInstanceAs (Decidable (Path.Same _ _))

def slash : UInt8 := 0x2f

/-- Appends a path behind one slash; an absolute one takes the place of `p`. -/
def join (p q : BytePath) : BytePath :=
  if q.bytes.head? = some slash then q
  else if p.bytes = [] ∨ p.bytes.getLast? = some slash then ⟨p.bytes ++ q.bytes⟩
  else ⟨p.bytes ++ slash :: q.bytes⟩

end BytePath

end Sidecar
