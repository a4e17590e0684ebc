import Sidecar.Toml.Node
import Sidecar.Toml.Scalar
import Sidecar.Toml.Text

/-! Reading a TOML document: a text is cut into statements, and the statements, in their order,
make a table. -/

namespace Sidecar.Toml

def inlineEntries? (pairs : List (List String × String × Node)) : Option Entries :=
  pairs.foldlM (fun es (path, key, n) => Entries.assign true es path key n) []

def numeric? (cs : List Char) : Option (Node × List Char) :=
  match moment? cs with
  | some rest => some (.moment, rest)
  | none =>
    match float? cs with
    | some rest => some (.float, rest)
    | none => (integer? cs).map fun (n, rest) => (.integer n, rest)

/-- Reads `value (, value)*`, a comma at the end allowed, through the closing bracket. -/
def items? (value : List Char → Option (Node × List Char)) :
    Nat → List Char → Option (List Node × List Char)
  | 0, _ => none
  | fuel + 1, cs =>
    match skipLines cs with
    | ']' :: rest => some ([], rest)
    | cs => do
      let (n, rest) ← value cs
      match skipLines rest with
      | ',' :: rest => (items? value fuel rest).map fun (ns, rest) => (n :: ns, rest)
      | ']' :: rest => some ([n], rest)
      | _ => none

def pairs? (value : List Char → Option (Node × List Char)) :
    Nat → List Char → Option (List (List String × String × Node) × List Char)
  | 0, _ => none
  | fuel + 1, cs => do
    let (path, key, rest) ← key? cs
    let (n, rest) ← value (skipBlanks (← char? '=' rest))
    match skipBlanks rest with
    | ',' :: rest => (pairs? value fuel rest).map fun (ps, rest) => ((path, key, n) :: ps, rest)
    | '\x7d' :: rest => some ([(path, key, n)], rest)
    | _ => none

/-- Reads a value; arrays and tables in it may be nested `depth` deep. -/
def value? (depth : Nat) (cs : List Char) : Option (Node × List Char) :=
  match cs with
  | '[' :: rest =>
    match depth with
    | 0 => none
    | depth + 1 =>
      (items? (value? depth) (rest.length + 1) rest).map fun (ns, rest) => (.array ns, rest)
  | '\x7b' :: rest =>
    match depth with
    | 0 => none
    | depth + 1 =>
      match skipBlanks rest with
      | '\x7d' :: rest => some (.inline [], rest)
      | _ => do
        let (ps, rest) ← pairs? (value? depth) (rest.length + 1) rest
        return (.inline (← inlineEntries? ps), rest)
  | 't' :: 'r' :: 'u' :: 'e' :: rest => some (.boolean true, rest)
  | 'f' :: 'a' :: 'l' :: 's' :: 'e' :: rest => some (.boolean false, rest)
  | '"' :: _ | '\'' :: _ => (string? cs).map fun (s, rest) => (.text (String.ofList s), rest)
  | cs => numeric? cs

inductive Statement where
  | header (path : List String) (key : String)
  | element (path : List String) (key : String)
  | assignment (path : List String) (key : String) (value : Node)

def statement? : List Char → Option (Statement × List Char)
  | '[' :: '[' :: rest => do
    let (path, key, rest) ← key? rest
    return (.element path key, ← char? ']' (← char? ']' rest))
  | '[' :: rest => do
    let (path, key, rest) ← key? rest
    return (.header path key, ← char? ']' rest)
  | cs => do
    let (path, key, rest) ← key? cs
    let (n, rest) ← value? (depthLimit - 1) (skipBlanks (← char? '=' rest))
    return (.assignment path key n, rest)

def statements? (cs : List Char) : Option (List Statement) :=
  lines (cs.length + 1) cs
where
  lines : Nat → List Char → Option (List Statement)
    | 0, _ => none
    | fuel + 1, cs =>
      match skipBlanks cs with
      | [] => some []
      | '#' :: rest => lineEnd? ('#' :: rest) >>= lines fuel
      | '\n' :: rest => lines fuel rest
      | '\r' :: rest => newline? ('\r' :: rest) >>= lines fuel
      | cs => do
        let (s, rest) ← statement? cs
        let rest ← lineEnd? rest
        return s :: (← lines fuel rest)

structure Section where
  path : List String
  key : String
  /-- It is one of the tables under double headers. -/
  isElement : Bool

/-- A document half read: what is complete, and the entries of the open section, which come before
any header if there is none. -/
structure Draft where
  root : Entries
  current : Option Section
  entries : Entries

namespace Draft

def addElement (key : String) (element : Entries) (es : Entries) : Option Entries :=
  match es.lookup key with
  | none => some (es.set key (.tables [element]))
  | some (.tables elements) => some (es.set key (.tables (elements ++ [element])))
  | some _ => none

def close (d : Draft) : Option Entries :=
  match d.current with
  | none => some d.entries
  | some s =>
    if s.isElement then d.root.modify (addElement s.key d.entries) s.path
    else d.root.modify (fun es => some (es.set s.key (.table .header d.entries))) s.path

/-- Opens the section of a header. A table that was only part of longer headers so far keeps its
entries; any other table cannot be opened again. -/
def openHeader (root : Entries) (path : List String) (key : String) : Option Draft := do
  let above ← root.follow path
  match above.lookup key with
  | none => return ⟨root, some ⟨path, key, false⟩, []⟩
  | some (.table .longerHeader inner) => return ⟨root, some ⟨path, key, false⟩, inner⟩
  | some _ => none

def openElement (root : Entries) (path : List String) (key : String) : Option Draft := do
  let above ← root.follow path
  match above.lookup key with
  | none | some (.tables _) => return ⟨root, some ⟨path, key, true⟩, []⟩
  | some _ => none

def add (d : Draft) : Statement → Option Draft
  | .assignment path key n => do
    return { d with entries := ← d.entries.assign true path key n }
  | .header path key => do openHeader (← d.close) path key
  | .element path key => do openElement (← d.close) path key

end Draft

/-- The table that a document makes. A byte order mark may stand in front. -/
def parse? (text : String) : Option Entries := do
  let cs := match text.toList with
    | '\ufeff' :: rest => rest
    | cs => cs
  let draft ← (← statements? cs).foldlM Draft.add ⟨[], none, []⟩
  draft.close

end Sidecar.Toml
