import Sidecar.Calendar
import Sidecar.Identity
import Sidecar.Summary.Format
import Sidecar.Text.Terminal

/-! The arguments of the command. They are taken one after another. The value of an option is
looked at when the next option starts or the arguments end, so that a mistake that shows on its own,
such as an unknown option, is told before it. -/

namespace Sidecar.CommandLine

/-- Options that take a value. -/
inductive Valued where
  | root
  | domain
  | revisionDate
  | sourceId
  | glob
  | approver
  | format
  deriving DecidableEq, Repr

/-- Options that take none. -/
inductive Switch where
  | dryRun
  | strict
  | verbose
  | quiet
  | help
  | version
  deriving DecidableEq, Repr

def Valued.name : Valued → String
  | .root => "root"
  | .domain => "domain"
  | .revisionDate => "revision-date"
  | .sourceId => "source-id"
  | .glob => "glob"
  | .approver => "approver"
  | .format => "format"

def Valued.placeholder : Valued → String
  | .root => "ROOT"
  | .domain => "DOMAIN"
  | .revisionDate => "REVISION_DATE"
  | .sourceId => "SOURCE_ID"
  | .glob => "PATTERN"
  | .approver => "APPROVER"
  | .format => "FORMAT"

def Valued.shown (o : Valued) : String :=
  "--" ++ o.name ++ " <" ++ o.placeholder ++ ">"

def Switch.name : Switch → String
  | .dryRun => "dry-run"
  | .strict => "strict"
  | .verbose => "verbose"
  | .quiet => "quiet"
  | .help => "help"
  | .version => "version"

def Switch.shown (s : Switch) : String :=
  "--" ++ s.name

def Valued.all : List Valued :=
  [.root, .domain, .revisionDate, .sourceId, .glob, .approver, .format]

def Switch.all : List Switch :=
  [.dryRun, .strict, .verbose, .quiet, .help, .version]

def Switch.ofLetter? : Char → Option Switch
  | 'v' => some .verbose
  | 'q' => some .quiet
  | 'h' => some .help
  | 'V' => some .version
  | _ => none

inductive UsageError where
  | unexpectedArgument (text : String)
  | unexpectedValue (value : String) (switch : Switch)
  | missingValue (option : Valued)
  | invalidValue (value : String) (option : Valued)
  | invalidDate (value : String) (problem : Calendar.DateError)
  | repeatedOption (option : Valued)
  | repeatedSwitch (switch : Switch)
  | conflict (first second : Switch)
  | missingOptions
  deriving DecidableEq, Repr

open Text (Span) in
/-- The message about a mistake. What the user gave and what is named is set off, but not the date
within the reason why it is refused. -/
def UsageError.spans : UsageError → List Span
  | .unexpectedArgument text =>
    [.running "unexpected argument '", .setOff text, .running "' found"]
  | .unexpectedValue value switch =>
    [.running "unexpected value '", .setOff value, .running "' for '", .setOff switch.shown,
      .running "' found; no more were expected"]
  | .missingValue option =>
    [.running "a value is required for '", .setOff option.shown,
      .running "' but none was supplied"]
  | .invalidValue value option =>
    [.running "invalid value '", .setOff value, .running "' for '", .setOff option.shown,
      .running "'"]
  | .invalidDate value problem =>
    [.running "invalid value '", .setOff value, .running "' for '",
      .setOff Valued.revisionDate.shown, .running ("': " ++ problem.message)]
  | .repeatedOption option =>
    [.running "the argument '", .setOff option.shown,
      .running "' cannot be used multiple times"]
  | .repeatedSwitch switch =>
    [.running "the argument '", .setOff switch.shown,
      .running "' cannot be used multiple times"]
  | .conflict first second =>
    [.running "the argument '", .setOff first.shown, .running "' cannot be used with '",
      .setOff second.shown, .running "'"]
  | .missingOptions => [.running "the following required arguments were not provided:"]

/-- The message as it is printed, with a pointer to the help. -/
def UsageError.text (e : UsageError) : String :=
  Text.spansText
    (.setOff "error:" :: .running " " :: e.spans ++
      [.running "\n\nFor more information, try '", .setOff "--help", .running "'.\n"])

/-- What has been given so far. -/
structure Given where
  root : Option String
  domain : Option Domain
  revisionDate : Option String
  sourceId : Option String
  globs : List String
  approver : Option String
  format : Option Summary.Format
  /-- In the order of the arguments. -/
  switches : List Switch
  deriving DecidableEq, Repr

def Given.nothing : Given :=
  ⟨none, none, none, none, [], none, none, []⟩

/-- A complete and consistent set of arguments. -/
structure Arguments where
  root : Path
  domain : Domain
  revisionDate : Option String
  sourceId : Option String
  globs : List String
  approver : Option String
  dryRun : Bool
  strict : Bool
  format : Option Summary.Format
  verbose : Bool
  quiet : Bool
  deriving DecidableEq, Repr

inductive Request where
  | generate (arguments : Arguments)
  | showHelp
  | showVersion
  deriving DecidableEq, Repr

/-- Why taking arguments stops before their end. -/
inductive Stop where
  | wrong (e : UsageError)
  | request (r : Request)

namespace Given

def once {α : Type} (o : Valued) (old : Option α) (new : Except UsageError α) :
    Except UsageError (Option α) :=
  match old with
  | some _ => .error (.repeatedOption o)
  | none => new.map some

def domainOf (v : String) : Except UsageError Domain :=
  match Domain.ofName? v with
  | some d => .ok d
  | none => .error (if v = "" then .missingValue .domain else .invalidValue v .domain)

def formatOf : String → Except UsageError Summary.Format
  | "table" => .ok .table
  | "json" => .ok .json
  | v => .error (if v = "" then .missingValue .format else .invalidValue v .format)

/-- Takes the value of an option in. -/
def setValue (g : Given) (o : Valued) (v : String) : Except UsageError Given :=
  match o with
  | .root => do
    let root ← once o g.root (if v = "" then .error (.missingValue o) else .ok v)
    return { g with root }
  | .domain => do
    let domain ← once o g.domain (domainOf v)
    return { g with domain }
  | .revisionDate => do
    let revisionDate ← once o g.revisionDate ((Calendar.checkDate v).mapError (.invalidDate v))
    return { g with revisionDate }
  | .sourceId => do
    let sourceId ← once o g.sourceId (.ok v)
    return { g with sourceId }
  | .glob => return { g with globs := g.globs ++ [v] }
  | .approver => do
    let approver ← once o g.approver (.ok v)
    return { g with approver }
  | .format => do
    let format ← once o g.format (formatOf v)
    return { g with format }

/-- What is to be done when the arguments end. -/
def finish (g : Given) : Except UsageError Arguments :=
  let has (s : Switch) := decide (s ∈ g.switches)
  if has .verbose && has .quiet then
    match g.switches.filter fun s => s = .verbose ∨ s = .quiet with
    | first :: second :: _ => .error (.conflict first second)
    | _ => .error .missingOptions
  else
    match g.root, g.domain, g.globs with
    | some root, some domain, glob :: globs =>
      .ok {
        root := ⟨root⟩
        domain
        revisionDate := g.revisionDate
        sourceId := g.sourceId
        globs := glob :: globs
        approver := g.approver
        dryRun := has .dryRun
        strict := has .strict
        format := g.format
        verbose := has .verbose
        quiet := has .quiet }
    | _, _, _ => .error .missingOptions

end Given

/-- An option whose value has not been taken in yet, and the value if there is one. -/
abbrev Pending := Option (Valued × Option String)

/-- Takes a pending value in. -/
def settle (g : Given) : Pending → Except UsageError Given
  | none => .ok g
  | some (o, none) => .error (.missingValue o)
  | some (o, some v) => g.setValue o v

def flip (g : Given) (s : Switch) : Except Stop Given :=
  match s with
  | .help => .error (.request .showHelp)
  | .version => .error (.request .showVersion)
  | s =>
    if s ∈ g.switches then .error (.wrong (.repeatedSwitch s))
    else .ok { g with switches := g.switches ++ [s] }

/-- Takes the letters behind one hyphen in. -/
def flipLetters (g : Given) (pending : Pending) : List Char → Except Stop (Given × Pending)
  | [] => .ok (g, pending)
  | c :: cs =>
    match Switch.ofLetter? c with
    | none => .error (.wrong (.unexpectedArgument ("-" ++ String.ofList [c])))
    | some s => do
      let g ← (settle g pending).mapError .wrong
      let g ← flip g s
      flipLetters g none cs

/-- A long option's name and the value behind its equals sign. -/
def splitLong (cs : List Char) : String × Option String :=
  let name := String.ofList (cs.takeWhile (· ≠ '='))
  match cs.dropWhile (· ≠ '=') with
  | [] => (name, none)
  | _ :: value => (name, some (String.ofList value))

/-- Takes a long option in. -/
def takeLong (g : Given) (pending : Pending) (cs : List Char) : Except Stop (Given × Pending) :=
  let (name, value) := splitLong cs
  match Valued.all.find? fun o => o.name = name with
  | some o => do
    let g ← (settle g pending).mapError .wrong
    match value with
    | none => .ok (g, some (o, none))
    | some v => .ok (← (g.setValue o v).mapError .wrong, none)
  | none =>
    match Switch.all.find? fun s => s.name = name with
    | some s =>
      match value with
      | some v => .error (.wrong (.unexpectedValue v s))
      | none => do
        let g ← (settle g pending).mapError .wrong
        .ok (← flip g s, none)
    | none => .error (.wrong (.unexpectedArgument ("--" ++ name)))

/-- Takes an argument in that is no option. -/
def takePlain (g : Given) (pending : Pending) (arg : String) : Except Stop (Given × Pending) :=
  match pending with
  | some (o, none) => .ok (g, some (o, some arg))
  | _ => .error (.wrong (.unexpectedArgument arg))

/-- Takes all arguments in. Behind `--` nothing is an option any more, and nothing else is
expected. -/
def takeAll (g : Given) (pending : Pending) : List String → Except Stop Given
  | [] => (settle g pending).mapError .wrong
  | arg :: rest =>
    match arg.toList with
    | ['-', '-'] =>
      match rest with
      | [] => (settle g pending).mapError .wrong
      | next :: _ => .error (.wrong (.unexpectedArgument next))
    | '-' :: '-' :: cs => do
      let (g, pending) ← takeLong g pending cs
      takeAll g pending rest
    | '-' :: c :: cs => do
      let (g, pending) ← flipLetters g pending (c :: cs)
      takeAll g pending rest
    | _ => do
      let (g, pending) ← takePlain g pending arg
      takeAll g pending rest

def parse (args : List String) : Except UsageError Request :=
  match takeAll .nothing none args with
  | .error (.wrong e) => .error e
  | .error (.request r) => .ok r
  | .ok g => g.finish.map .generate

end Sidecar.CommandLine
