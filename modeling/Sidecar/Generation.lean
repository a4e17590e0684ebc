import Sidecar.Collision
import Sidecar.Digest.Reads
import Sidecar.Record.Shape

/-! A run: select files, derive a record of each and write it beside the file. Files are taken one
after another; the first failure ends the run and leaves the sidecars before it in place. -/

namespace Sidecar

structure RunOptions where
  root : Path
  globs : List String
  exclude : List String
  context : RecordContext
  /-- Derive and hash, but write nothing. -/
  dryRun : Bool
  /-- Refuse files that share a content id. -/
  strict : Bool

structure ProcessedFile where
  path : String
  contentId : String
  year : Option Int32
  sha256 : String
  sidecar : String
  deriving DecidableEq, Repr

structure Report where
  files : List ProcessedFile
  dryRun : Bool
  collisions : List Collision
  deriving DecidableEq, Repr

inductive Event where
  | resolving (patterns : Nat) (root : Path)
  | matchedNothing (pattern : String) (root : Path)
  | excluding (relPath pattern : String)
  | matched (relPath : String)
  | resolved (files : Nat)
  | idShared (collision : Collision)
  | skipped (relPath : String)
  | wrote (sidecar : Path)
  deriving DecidableEq, Repr

/-- What a run leaves, be it finished or not. -/
structure Outcome where
  result : Except Failure Report
  tree : FileTree
  log : List Event

def sha256File (t : FileTree) (p : Path) : Except Failure String := do
  let content ← (t.read p).mapError (.unreadable p)
  (Digest.ofReads .new (Digest.fullReads content.toList)).mapError (.unreadable p)

namespace Record

def build (t : FileTree) (ctx : RecordContext) (path : Path) (relPath : String) :
    Except Failure Record :=
  (sha256File t path).map (assemble ctx path relPath)

/-- Writes the sidecar of the file at `path`, in place of any that is there. -/
def write (t : FileTree) (path : Path) (r : Record) : Except Failure FileTree :=
  (t.write (sidecarPath path) r.render.toUTF8).mapError (.unwritable (sidecarPath path))

def processed (r : Record) (relPath : String) : ProcessedFile :=
  ⟨r.artifact.path, r.contentId, r.coverage.year, r.artifact.sha256, relPath ++ sidecarSuffix⟩

end Record

namespace Generation

def process (ctx : RecordContext) (dryRun : Bool) (t : FileTree) (file : ResolvedFile) :
    Except Failure (ProcessedFile × FileTree) := do
  let record ← Record.build t ctx file.path file.relPath
  let t ← if dryRun then pure t else record.write t file.path
  return (record.processed file.relPath, t)

/-- The files up to the first that fails, and the tree that they leave. -/
def processAll (ctx : RecordContext) (dryRun : Bool) (t : FileTree) :
    List ResolvedFile → List ProcessedFile × FileTree × Option Failure
  | [] => ([], t, none)
  | file :: rest =>
    match process ctx dryRun t file with
    | .error e => ([], t, some e)
    | .ok (processed, t) =>
      let (more, t, failure) := processAll ctx dryRun t rest
      (processed :: more, t, failure)

def decisionEvent (root : BytePath) : Selection.Decision → Option Event
  | .nothing pattern => some (.matchedNothing pattern root.shown)
  | .passedOver _ => none
  | .excluded file pattern => some (.excluding file.relPath pattern.text)
  | .selected file => some (.matched file.relPath)

def selectionEvents (t : FileTree) (root : BytePath) (globs : List String)
    (exclude : List Glob.Pattern) : List Event :=
  (Selection.decisions t exclude [] (Selection.survey t root globs).1).filterMap
    (decisionEvent root)

def fileEvent (dryRun : Bool) (file : ResolvedFile) : Event :=
  if dryRun then .skipped file.relPath else .wrote (sidecarPath file.path)

def ofFiles (options : RunOptions) (t : FileTree) (files : List ResolvedFile) : Outcome :=
  let shared := collisions options.context.domain files
  match options.strict, shared with
  | true, first :: _ => ⟨.error (.sharedId first.contentId first.paths), t, []⟩
  | _, _ =>
    let (processed, t, failure) := processAll options.context options.dryRun t files
    let result := match failure with
      | some e => .error e
      | none => .ok ⟨processed, options.dryRun, shared⟩
    let log := shared.map .idShared ++
      (files.take processed.length).map (fileEvent options.dryRun)
    ⟨result, t, log⟩

/-- A run under a canonical root. -/
def runUnder (options : RunOptions) (t : FileTree) (root : BytePath)
    (exclude : List Glob.Pattern) : Outcome :=
  let before := .resolving options.globs.length root.shown ::
    selectionEvents t root options.globs exclude
  match resolveUnder t root options.globs exclude with
  | .error e => ⟨.error e, t, before⟩
  | .ok files =>
    let outcome := ofFiles options t files
    { outcome with log := before ++ .resolved files.length :: outcome.log }

end Generation

def run (options : RunOptions) (t : FileTree) : Outcome :=
  match (do
    let root ← canonicalRoot t options.root
    let exclude ← compileExcludes options.exclude
    return (root, exclude) : Except Failure (Path × List Glob.Pattern)) with
  | .error e => ⟨.error e, t, []⟩
  | .ok (root, exclude) => Generation.runUnder options t root exclude

end Sidecar
