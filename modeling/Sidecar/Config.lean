import Sidecar.FileTree.Operations
import Sidecar.Toml.Document

/-! The settings of a content root. Whatever is left out has its default and whatever is not known
is passed over. -/

namespace Sidecar

structure Config where
  exclude : List String
  /-- Refuse files that share a content id. -/
  strict : Bool
  format : Option String
  /-- Whether the summary is coloured, if that is settled. -/
  colour : Option Bool
  deriving DecidableEq, Repr

namespace Config

open Toml

def default : Config :=
  ⟨[], false, none, none⟩

def text? : Node → Option String
  | .text s => some s
  | _ => none

def boolean? : Node → Option Bool
  | .boolean b => some b
  | _ => none

def texts? : Node → Option (List String)
  | .array items => items.mapM text?
  | _ => none

/-- What a section says about its fields, by name; a section may also list them in their order. -/
def fieldsOf? (names : List String) : Node → Option Entries
  | .inline es => some es
  | .table _ es => some es
  | .array items => some (names.zip items)
  | .tables elements => some (names.zip (elements.map (.table .header)))
  | .moment => some []
  | _ => none

/-- A field decoded, if it is there. -/
def field? {α : Type} (decode : Node → Option α) (es : Entries) (name : String) :
    Option (Option α) :=
  match es.lookup name with
  | none => some none
  | some n => (decode n).map some

def sectionOf? (es : Entries) (name : String) (fields : List String) : Option Entries :=
  match es.lookup name with
  | none => some []
  | some n => fieldsOf? fields n

def ofEntries? (es : Entries) : Option Config := do
  let scan ← sectionOf? es "scan" ["exclude"]
  let generate ← sectionOf? es "generate" ["strict"]
  let output ← sectionOf? es "output" ["format", "color"]
  let exclude ← field? texts? scan "exclude"
  let strict ← field? boolean? generate "strict"
  let format ← field? text? output "format"
  let colour ← field? boolean? output "color"
  return ⟨exclude.getD [], strict.getD false, format, colour⟩

def parse? (text : String) : Option Config :=
  (Toml.parse? text).bind ofEntries?

def fileName : String := ".contentmeta.toml"

/-- Why settings that are there are not used. -/
inductive Problem where
  | unreadable (cause : OsError)
  | notText
  | unparsable
  deriving DecidableEq, Repr

/-- The settings in a content root. Without a file there, and with one that is of no use, they are
the defaults. -/
def load (t : FileTree) (root : Path) : Config × Option Problem :=
  let p := root.join fileName
  if t.exists p then
    match t.read p with
    | .error e => (default, some (.unreadable e))
    | .ok content =>
      match String.fromUTF8? content with
      | none => (default, some .notText)
      | some text =>
        match parse? text with
        | some config => (config, none)
        | none => (default, some .unparsable)
  else (default, none)

end Config

end Sidecar
