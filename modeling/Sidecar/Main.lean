import Sidecar.CommandLine.Program

/-! The command as a program. Which entries there are comes on standard input, one a line: `d`, `f`
or `l`, a tab and the absolute path of a directory, file or link, and behind a link another tab and
its target. A directory comes before the files and links in it, and an entry takes the place of one
that was listed before at its path. The program reads the files, runs the command on the tree and
writes the files that the run made or changed. -/

namespace Sidecar

/-- An entry of the listing. -/
inductive Listed where
  | directory (path : Path)
  | file (path : Path)
  | link (path : Path) (target : String)

def Listed.ofLine? (line : String) : Option Listed :=
  match Text.piecesOf '\t' line with
  | "d" :: path :: _ => some (.directory ⟨path⟩)
  | "f" :: path :: _ => some (.file ⟨path⟩)
  | ["l", path, target] => some (.link ⟨path⟩ target)
  | _ => none

/-- The files of a tree that another tree has not, or has with other bytes. -/
def FileTree.newFiles (t old : FileTree) : List (Location × ByteArray) :=
  (t.entries.map (·.1)).eraseDups.filterMap fun loc =>
    match t.get? loc with
    | some (.file content) =>
      if old.get? loc = some (.file content) then none else some (loc, content)
    | _ => none

def Location.path (loc : Location) : Path :=
  ⟨"/" ++ Text.joinedBy "/" loc.reverse⟩

/-- The location of an absolute path without links. -/
def Path.location (p : Path) : Location :=
  (p.segments.filter (· ≠ "")).reverse

partial def readText (input : IO.FS.Stream) (before : String) : IO String := do
  let line ← input.getLine
  if line.isEmpty then return before
  readText input (before ++ line)

/-- With an entry in place of what stands at a path. What has no directory is left out. -/
def FileTree.replace (t : FileTree) (p : Path) (e : Entry) : FileTree :=
  (((t.removeAll p).toOption.getD t).make p e).toOption.getD t

/-- Adds what is listed; a file that cannot be read is left out. -/
def plant (t : FileTree) : Listed → IO FileTree
  | .directory p => return (t.makeDirectories p).toOption.getD t
  | .link p target => return t.replace p (.link target)
  | .file p => do
    try return t.replace p (.file (← IO.FS.readBinFile p.text))
    catch _ => return t

end Sidecar

open Sidecar in
def main (args : List String) : IO UInt32 := do
  let listing := (Text.linesOf (← readText (← IO.getStdin) "")).filterMap Listed.ofLine?
  let planted ← listing.foldlM plant FileTree.empty
  let here : Path := ⟨(← IO.getEnv "PWD").getD "/"⟩
  let before := { planted with workingDirectory := here.location }
  let env : CommandLine.Environment :=
    ⟨← IO.getEnv "USER", (← IO.getEnv "TODAY").getD "1970-01-01"⟩
  let exit := CommandLine.execute env args before
  for (loc, content) in exit.tree.newFiles before do
    IO.FS.writeBinFile loc.path.text content
  IO.print exit.stdout
  IO.eprint exit.stderr
  return exit.code
