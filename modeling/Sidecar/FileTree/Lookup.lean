import Sidecar.FileTree.Basic
import Sidecar.Path

/-! Where a path leads. A path is walked segment by segment from the root or the working directory:
links are followed as they are met, at most forty in one walk, and `..` goes up from the place
reached so far, not from the text before it. -/

namespace Sidecar

inductive OsError where
  | notFound
  | notADirectory
  | isADirectory
  | alreadyExists
  | nameTooLong
  | tooManyLinks
  | nulInPath
  deriving DecidableEq, Repr

def OsError.message : OsError → String
  | .notFound => "No such file or directory (os error 2)"
  | .alreadyExists => "File exists (os error 17)"
  | .notADirectory => "Not a directory (os error 20)"
  | .isADirectory => "Is a directory (os error 21)"
  | .nameTooLong => "File name too long (os error 36)"
  | .tooManyLinks => "Too many levels of symbolic links (os error 40)"
  | .nulInPath => "file name contained an unexpected NUL byte"

/-- What the last name of a path stands for: the entry that a link there leads to, the link
itself, or a file that is made if there is none. -/
inductive Ending where
  | target
  | entry
  | newFile
  deriving DecidableEq, Repr

namespace FileTree

/-- Bytes that a whole path must stay below. -/
def maxPathBytes : Nat := 4096

/-- Links that one walk may follow. -/
def maxLinks : Nat := 40

/-- Follows segments from a directory. A slash behind the last name asks for a directory, which a
file about to be made is not. -/
def walk (t : FileTree) (ending : Ending) (links : Nat) (place : Location) :
    List String → Except OsError Location
  | [] => .ok place
  | s :: rest =>
    if s = "" ∨ s = "." then t.walk ending links place rest
    else if s = ".." then t.walk ending links place.tail rest
    else if ending = .newFile ∧ rest ≠ [] ∧ rest.all (· = "") then .error .isADirectory
    else if maxNameBytes < s.utf8ByteSize then .error .nameTooLong
    else match t.get? (s :: place) with
      | none =>
        if ending = .newFile ∧ rest = [] then .ok (s :: place) else .error .notFound
      | some .directory => t.walk ending links (s :: place) rest
      | some (.file _) => if rest = [] then .ok (s :: place) else .error .notADirectory
      | some (.link target) =>
        if ending = .entry ∧ rest = [] then .ok (s :: place)
        else match links with
          | 0 => .error .tooManyLinks
          | more + 1 =>
            let p : Path := ⟨target⟩
            t.walk ending more (if p.isAbsolute then [] else place) (p.segments ++ rest)
  termination_by segments => (links, segments.length)

/-- The walk that a path asks for, whatever its length. A relative path leads nowhere when the
working directory is gone. -/
def walkPath (t : FileTree) (ending : Ending) (p : Path) : Except OsError Location :=
  if '\x00' ∈ p.text.toList then .error .nulInPath
  else if p.text = "" then .error .notFound
  else if p.isAbsolute then t.walk ending maxLinks [] p.segments
  else if t.get? t.workingDirectory ≠ some .directory then .error .notFound
  else t.walk ending maxLinks t.workingDirectory p.segments

def locate (t : FileTree) (ending : Ending) (p : Path) : Except OsError Location :=
  if '\x00' ∉ p.text.toList ∧ maxPathBytes ≤ p.text.utf8ByteSize then .error .nameTooLong
  else t.walkPath ending p

def find (t : FileTree) (ending : Ending) (p : Path) : Except OsError Entry := do
  match t.get? (← t.locate ending p) with
  | some e => .ok e
  | none => .error .notFound

def «exists» (t : FileTree) (p : Path) : Bool :=
  (t.find .target p).isOk

def isDirectory (t : FileTree) (p : Path) : Bool :=
  match t.find .target p with
  | .ok e => e.isDirectory
  | .error _ => false

/-- Whether the segments behind a name ask for a directory there: the path goes up from it or ends
in a slash or in dots. -/
def asksForDirectory : List String → Bool
  | [] => false
  | s :: rest =>
    if s = ".." then true
    else if s = "" ∨ s = "." then rest.isEmpty || asksForDirectory rest
    else false

/-- The texts by which a walk that follows all links looks up the places that it comes to, each by
its whole path, and a directory that is asked for with a slash behind it. -/
def lookups (t : FileTree) (links : Nat) (place : Location) : List String → List String
  | [] => []
  | s :: rest =>
    if s = "" ∨ s = "." then t.lookups links place rest
    else if s = ".." then t.lookups links place.tail rest
    else match t.get? (s :: place) with
      | some .directory =>
        (if asksForDirectory rest then pathOf (s :: place) ++ "/" else pathOf (s :: place)) ::
          t.lookups links (s :: place) rest
      | some (.link target) =>
        pathOf (s :: place) :: match links with
          | 0 => []
          | more + 1 =>
            let p : Path := ⟨target⟩
            t.lookups more (if p.isAbsolute then [] else place) (p.segments ++ rest)
      | _ => [pathOf (s :: place)]
  termination_by segments => (links, segments.length)

def start (t : FileTree) (p : Path) : Location :=
  if p.isAbsolute then [] else t.workingDirectory

/-- The absolute path, free of links and dots, of the place that a path leads to. The path itself
may be of any length, but none of the texts by which the places on its way are looked up. -/
def realPath (t : FileTree) (p : Path) : Except OsError Path := do
  let loc ← t.walkPath .target p
  if (t.lookups maxLinks (t.start p) p.segments).all (·.utf8ByteSize < maxPathBytes) then
    .ok ⟨pathOf loc⟩
  else .error .nameTooLong

end FileTree

end Sidecar
