import Sidecar.CommandLine.Arguments
import Sidecar.CommandLine.Log

/-! What the command does with its arguments, its environment and a file tree: one run, its summary
on standard output and its log and errors on standard error. -/

namespace Sidecar.CommandLine

/-- What the command leaves. -/
structure Exit where
  code : UInt32
  stdout : String
  stderr : String
  tree : FileTree

structure Environment where
  /-- The name of the user, if there is one. -/
  user : Option String
  /-- The day of the run. -/
  today : String

def nonEmpty (s : Option String) : Option String :=
  s.filter (· ≠ "")

def contextOf (env : Environment) (a : Arguments) : RecordContext :=
  .new a.domain (a.revisionDate.getD env.today) a.sourceId
    (nonEmpty (a.approver.or env.user))

def optionsOf (env : Environment) (a : Arguments) (config : Config) : RunOptions :=
  ⟨a.root, a.globs, config.exclude, contextOf env a, a.dryRun, a.strict || config.strict⟩

/-- The format that was asked for, else the configured one if it is known, else a table. -/
def formatOf (a : Arguments) (config : Config) : Summary.Format :=
  (a.format.or (config.format.bind Summary.Format.ofName?)).getD .table

/-- Colours are off unless they are configured. -/
def isColoured (config : Config) : Bool :=
  config.colour == some true

/-- The summary as it is printed; `quiet` leaves a table out, but not JSON. -/
def printed (a : Arguments) (config : Config) (r : Report) : String :=
  match formatOf a config with
  | .json => Summary.jsonText r ++ "\n"
  | .table => if a.quiet then "" else Summary.tableText (isColoured config) r ++ "\n"

/-- A cause, the first line behind its number if there are several causes. -/
def causeText (number : Option Nat) (cause : String) : String :=
  match number with
  | none => "    " ++ "\n    ".intercalate (Text.piecesOf '\n' cause)
  | some n =>
    "    " ++ toString n ++ ": " ++ "\n       ".intercalate (Text.piecesOf '\n' cause)

def failureText (a : Arguments) (e : Failure) : String :=
  "Error: Failed to generate " ++ a.domain.name ++ " metadata under " ++ a.root.text ++
    "\n\nCaused by:\n" ++
    (match e.cause? with
      | none => causeText none e.message
      | some cause => causeText (some 0) e.message ++ "\n" ++ causeText (some 1) cause) ++ "\n"

def logText (a : Arguments) (entries : List Entry) : String :=
  String.join ((entries.filter (·.isTold a.verbose a.quiet)).map fun e => e.text ++ "\n")

def generate (env : Environment) (a : Arguments) (t : FileTree) : Exit :=
  let (config, problem) := Config.load t a.root
  let outcome := run (optionsOf env a config) t
  let entries := problem.toList.map .ofConfigProblem ++ outcome.log.map .ofEvent
  match outcome.result with
  | .ok report =>
    { code := 0
      stdout := printed a config report
      stderr := logText a (entries ++ [.processed report.files.length])
      tree := outcome.tree }
  | .error e =>
    { code := 1
      stdout := ""
      stderr := logText a entries ++ failureText a e
      tree := outcome.tree }

def versionText : String := "contentmeta 0.1.0\n"

def helpText : String :=
  "Generate metadata sidecars for tax and labor content files\n\n" ++
  "Usage: contentmeta [OPTIONS] --root <ROOT> --domain <DOMAIN> --glob <PATTERN>\n"

/-- The command as a function of all that it depends on. -/
def execute (env : Environment) (args : List String) (t : FileTree) : Exit :=
  match parse args with
  | .error e => ⟨2, "", e.text, t⟩
  | .ok .showHelp => ⟨0, helpText, "", t⟩
  | .ok .showVersion => ⟨0, versionText, "", t⟩
  | .ok (.generate a) => generate env a t

end Sidecar.CommandLine
