import Sidecar.Failure

/-! The files that patterns select under a root: those of the first pattern in the order of their
paths, then what the next adds, and so on. Directories and sidecars are never selected, nor are
files that an exclusion matches. -/

namespace Sidecar

def sidecarSuffix : String := ".metadata.json"

def sidecarPath (p : Path) : Path :=
  p.withFileName (p.fileName?.getD "" ++ sidecarSuffix)

def isSidecar (p : Path) : Bool :=
  match p.fileName? with
  | some name => sidecarSuffix.toList.isSuffixOf name.toList
  | none => false

structure ResolvedFile where
  path : Path
  /-- Relative to the root, with slashes. -/
  relPath : String
  deriving DecidableEq, Repr

def canonicalRoot (t : FileTree) (root : Path) : Except Failure Path :=
  match t.realPath root with
  | .ok p => if t.isDirectory p then .ok p else .error (.invalidRoot root)
  | .error _ => .error (.invalidRoot root)

def namesOf? : List Path.Part → Option (List String)
  | [] => some []
  | .name n :: rest => (namesOf? rest).map (n :: ·)
  | .here :: rest => namesOf? rest
  | _ => none

/-- The names from a root down to a path, as they are shown. -/
def BytePath.relativePath (root path : BytePath) : Except Failure String :=
  match (root.spelled.partsBelow path.spelled).bind namesOf? with
  | some names => .ok ("/".intercalate (names.map fun n => Text.decode (unspell n)))
  | none => .error (.outsideRoot path.shown root.shown)

def relativePath (root path : Path) : Except Failure String :=
  BytePath.relativePath root path

def compilePattern (p : String) : Except Failure Glob.Pattern :=
  (Glob.Pattern.parse p).mapError (.invalidPattern p)

def compileExcludes (ps : List String) : Except Failure (List Glob.Pattern) :=
  ps.mapM compilePattern

namespace Selection

inductive Step where
  | nothing (pattern : String)
  | found (file : ResolvedFile)

inductive Decision where
  | nothing (pattern : String)
  /-- A directory or a sidecar. -/
  | passedOver (file : ResolvedFile)
  | excluded (file : ResolvedFile) (pattern : Glob.Pattern)
  | selected (file : ResolvedFile)

def Decision.selected? : Decision → Option ResolvedFile
  | .selected file => some file
  | _ => none

def pathsOf (t : FileTree) (root : BytePath) (pattern : String) : Except Failure (List Path) := do
  let route ← (Glob.Route.parse (Glob.underRoot root pattern)).mapError (.invalidPattern pattern)
  (route.paths t).mapError (.unlistable pattern)

/-- The paths that lie under the root, up to the first that does not. -/
def filesOf (root : BytePath) : List Path → List ResolvedFile × Option Failure
  | [] => ([], none)
  | p :: ps =>
    match BytePath.relativePath root p with
    | .error e => ([], some e)
    | .ok relPath =>
      let (files, failure) := filesOf root ps
      (⟨p, relPath⟩ :: files, failure)

def stepsOf (t : FileTree) (root : BytePath) (pattern : String) : List Step × Option Failure :=
  match pathsOf t root pattern with
  | .error e => ([], some e)
  | .ok [] => ([.nothing pattern], none)
  | .ok paths =>
    let (files, failure) := filesOf root paths
    (files.map .found, failure)

def survey (t : FileTree) (root : BytePath) : List String → List Step × Option Failure
  | [] => ([], none)
  | p :: ps =>
    match stepsOf t root p with
    | (steps, some e) => (steps, some e)
    | (steps, none) =>
      let (more, failure) := survey t root ps
      (steps ++ more, failure)

def judge (t : FileTree) (exclude : List Glob.Pattern) (file : ResolvedFile) : Decision :=
  if t.isDirectory file.path || isSidecar file.path then .passedOver file
  else match exclude.find? (·.matches file.relPath) with
    | some p => .excluded file p
    | none => .selected file

/-- Judges each file where it is come upon first. -/
def decisions (t : FileTree) (exclude : List Glob.Pattern) (seen : List String) :
    List Step → List Decision
  | [] => []
  | .nothing p :: rest => .nothing p :: decisions t exclude seen rest
  | .found file :: rest =>
    if file.relPath ∈ seen then decisions t exclude seen rest
    else judge t exclude file :: decisions t exclude (file.relPath :: seen) rest

end Selection

/-- The files that patterns select under a canonical root, be it text or not. -/
def resolveUnder (t : FileTree) (root : BytePath) (patterns : List String)
    (exclude : List Glob.Pattern) : Except Failure (List ResolvedFile) :=
  match Selection.survey t root patterns with
  | (_, some e) => .error e
  | (steps, none) =>
    .ok ((Selection.decisions t exclude [] steps).filterMap Selection.Decision.selected?)

def resolve (t : FileTree) (root : Path) (patterns : List String) (exclude : List Glob.Pattern) :
    Except Failure (List ResolvedFile) :=
  resolveUnder t root patterns exclude

end Sidecar
