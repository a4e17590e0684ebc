import Sidecar.Text.Pieces

/-! Unix paths that are text, as all are here that a file tree, a pattern or an argument holds; only
the root of a run and what is cut at it may be paths in bytes (`BytePath`). A path keeps its
spelling, since messages show it; what it means are its parts. Empty and inner `.` segments name
nothing, so two spellings can have the same parts. -/

namespace Sidecar

structure Path where
  text : String
  deriving DecidableEq, Repr

namespace Path

/-- A part of a path. `here` is a `.` that opens a relative path, the only one that counts. -/
inductive Part where
  | root
  | here
  | parent
  | name (text : String)
  deriving DecidableEq, Repr

/-- The part that a segment past the first stands for. -/
def Part.ofInner? (segment : String) : Option Part :=
  if segment = "" ∨ segment = "." then none
  else if segment = ".." then some .parent
  else some (.name segment)

/-- The part that the first segment of a longer path or of a relative path stands for. -/
def Part.ofFirst (segment : String) : Part :=
  if segment = "" then .root
  else if segment = "." then .here
  else if segment = ".." then .parent
  else .name segment

def segments (p : Path) : List String :=
  Text.piecesOf '/' p.text

def parts (p : Path) : List Part :=
  if p.text = "" then []
  else match p.segments with
    | [] => []
    | first :: rest => .ofFirst first :: rest.filterMap Part.ofInner?

def isAbsolute (p : Path) : Bool :=
  p.text.toList.head? == some '/'

def Same (p q : Path) : Prop :=
  p.parts = q.parts

instance (p q : Path) : Decidable (Same p q) :=
  inferInstanceAs (Decidable (_ = _))

def fileName? (p : Path) : Option String :=
  match p.parts.getLast? with
  | some (.name n) => some n
  | _ => none

/-- Appends a name behind one slash. -/
def child (p : Path) (name : String) : Path :=
  if p.text = "" ∨ p.text.toList.getLast? = some '/' then ⟨p.text ++ name⟩
  else ⟨p.text ++ "/" ++ name⟩

/-- Appends a path behind one slash; an absolute one takes the place of `p`. -/
def join (p : Path) (q : String) : Path :=
  if q.toList.head? = some '/' then ⟨q⟩ else p.child q

theorem utf8ByteSize_child (p : Path) (name : String) :
    p.text.utf8ByteSize + name.utf8ByteSize ≤ (p.child name).text.utf8ByteSize := by
  unfold child
  split
  · simp [String.utf8ByteSize_append]
  · simp only [String.utf8ByteSize_append]; omega

/-- Without the void segments at its end, the first kept. -/
def withoutVoidEnd : List String → List String
  | [] => []
  | first :: rest => first :: (rest.reverse.dropWhile fun s => s = "" ∨ s = ".").reverse

/-- The text before the last part of a path that ends in a name. -/
def directory (p : Path) : Path :=
  match withoutVoidEnd p.segments with
  | [] => ⟨""⟩
  | [_] => ⟨""⟩
  | first :: second :: rest =>
    match withoutVoidEnd (first :: second :: rest).dropLast with
    | [""] => ⟨"/"⟩
    | kept => ⟨Text.joinedBy "/" kept⟩

/-- With the last name replaced; a path without one gets the name appended. -/
def withFileName (p : Path) (name : String) : Path :=
  match p.fileName? with
  | some _ => p.directory.join name
  | none => p.join name

/-- A file name cut at its last dot. A dot at the start of the name opens no extension. -/
def splitExtension (name : String) : String × Option String :=
  let after := (name.toList.reverse.takeWhile (· ≠ '.')).reverse
  let before := (name.toList.reverse.dropWhile (· ≠ '.')).tail.reverse
  if before = [] then (name, none) else (String.ofList before, some (String.ofList after))

def stem (p : Path) : String :=
  match p.fileName? with
  | some n => (splitExtension n).1
  | none => ""

def extension? (p : Path) : Option String :=
  p.fileName?.bind fun n => (splitExtension n).2

/-- What is left of `q`'s parts behind those of `p`. -/
def partsBelow (p q : Path) : Option (List Part) :=
  if p.parts.isPrefixOf q.parts then some (q.parts.drop p.parts.length) else none

/-- Order of parts: the root, `.`, `..`, then names by their characters, which is also the order of
their bytes. -/
def Part.le : Part → Part → Bool
  | .root, _ => true
  | _, .root => false
  | .here, _ => true
  | _, .here => false
  | .parent, _ => true
  | _, .parent => false
  | .name a, .name b => decide (a ≤ b)

def partsLe : List Part → List Part → Bool
  | [], _ => true
  | _ :: _, [] => false
  | a :: as, b :: bs => if a = b then partsLe as bs else a.le b

/-- Paths are ordered part by part, so `a/b` comes before `a-b`. -/
def le (p q : Path) : Bool :=
  partsLe p.parts q.parts

end Path

end Sidecar
