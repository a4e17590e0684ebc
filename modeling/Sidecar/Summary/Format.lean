import Sidecar.Generation
import Sidecar.Summary.Table

/-! The summary of a run: a table for people, JSON for programs. -/

namespace Sidecar.Summary

inductive Format where
  | table
  | json
  deriving DecidableEq, Repr

/-- The format that a text names, its case aside. -/
def Format.ofName? (s : String) : Option Format :=
  match s.map Char.toLower with
  | "table" => some .table
  | "json" => some .json
  | _ => none

def Format.unknownMessage (s : String) : String :=
  "Unknown output format: '" ++ s ++ "'"

inductive Colour where
  | green
  | yellow

def Colour.code : Colour → String
  | .green => "32"
  | .yellow => "33"

def paint (coloured : Bool) (c : Colour) (s : String) : String :=
  if coloured then "\x1b[" ++ c.code ++ "m" ++ s ++ "\x1b[0m" else s

/-- The first twelve bytes of a digest, if they are whole characters, else all of it. -/
def shortDigest (sha256 : String) : String :=
  match firstBytes 12 sha256.toList with
  | some cs => String.ofList cs
  | none => sha256
where
  firstBytes : Nat → List Char → Option (List Char)
    | 0, _ => some []
    | _ + 1, [] => none
    | n + 1, c :: cs =>
      if c.utf8Size ≤ n + 1 then (firstBytes (n + 1 - c.utf8Size) cs).map (c :: ·) else none
  termination_by _ cs => cs.length

def yearText : Option Int32 → String
  | some y => toString y.toInt
  | none => "-"

def tableOf (r : Report) : Table :=
  .ofTexts ["Path", "Content ID", "Year", "SHA-256"] <|
    r.files.map fun f => [f.path, f.contentId, yearText f.year, shortDigest f.sha256]

def totalText (r : Report) : String :=
  let n := toString r.files.length
  if r.dryRun then "Would write " ++ n ++ " sidecar(s) (dry run)"
  else "Wrote " ++ n ++ " sidecar(s)"

def tableText (coloured : Bool) (r : Report) : String :=
  if r.files = [] then paint coloured .yellow "No files matched."
  else (tableOf r).text ++ "\n" ++ paint coloured .green (totalText r) ++
    if r.collisions = [] then ""
    else "\n" ++ paint coloured .yellow
      (toString r.collisions.length ++ " content id collision(s)")

def fileJson (f : ProcessedFile) : Json :=
  .object [("path", .text f.path), ("contentId", .text f.contentId),
    ("year", match f.year with
      | some y => .integer y.toInt
      | none => .null),
    ("sha256", .text f.sha256), ("sidecar", .text f.sidecar)]

def toJson (r : Report) : Json :=
  .object [("dryRun", .boolean r.dryRun), ("files", .array (r.files.map fileJson)),
    ("written", .integer (if r.dryRun then 0 else r.files.length))]

def jsonText (r : Report) : String :=
  (toJson r).prettyText

end Sidecar.Summary
