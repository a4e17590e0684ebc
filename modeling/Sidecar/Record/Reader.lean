import Sidecar.Json.Real
import Sidecar.Record.Shape

/-! Reading a record from JSON text. The text is read in its order and the first problem met
decides the error, so a value of the wrong kind is refused before what follows it is looked at,
and a missing field is noticed where its record ends. Fields that a record does not have are
passed over. -/

namespace Sidecar

inductive FoundJson where
  | null
  | boolean (b : Bool)
  | number (described : String)
  | text (s : String)
  | sequence
  | map
  deriving DecidableEq, Repr

inductive ReadError where
  /-- The text is not JSON as far as it was read, or more follows than the record takes. -/
  | notJson
  | invalidType (found : FoundJson) (expected : String)
  | invalidValue (found : FoundJson) (expected : String)
  | invalidLength (length : Nat) (expected : String)
  | missingField (name : String)
  | duplicateField (name : String)
  | unknownDomain (name : String)
  deriving DecidableEq, Repr

namespace Record

open Json

def orNotJson {α : Type} : Option α → Except ReadError α
  | some a => .ok a
  | none => .error .notJson

def startsNumeral : List Char → Bool
  | c :: _ => c == '-' || c.isDigit
  | [] => false

/-- Reads the scalar or the opening of the container that comes next. -/
def found? (cs : List Char) : Option FoundJson :=
  match cs with
  | 'n' :: 'u' :: 'l' :: 'l' :: _ => some .null
  | 't' :: 'r' :: 'u' :: 'e' :: _ => some (.boolean true)
  | 'f' :: 'a' :: 'l' :: 's' :: 'e' :: _ => some (.boolean false)
  | '"' :: rest => do return .text (← textOf? (← scanText rest).1)
  | '[' :: _ => some .sequence
  | '\x7b' :: _ => some .map
  | cs => do return .number (← (← scanNumeral cs).1.scalar?).describe

def mismatch (expected : String) (cs : List Char) : ReadError :=
  match found? cs with
  | some f => .invalidType f expected
  | none => .notJson

def readText (cs : List Char) : Except ReadError (String × List Char) :=
  match skipSpace cs with
  | '"' :: rest => do
    let (pieces, rest) ← orNotJson (scanText rest)
    .ok (← orNotJson (textOf? pieces), rest)
  | rest => .error (mismatch "a string" rest)

def readInteger (expected : String) (least greatest : Int) (cs : List Char) :
    Except ReadError (Int × List Char) :=
  let cs := skipSpace cs
  if startsNumeral cs then do
    let (numeral, rest) ← orNotJson (scanNumeral cs)
    let scalar ← orNotJson numeral.scalar?
    let within (n : Int) : Except ReadError (Int × List Char) :=
      if least ≤ n ∧ n ≤ greatest then .ok (n, rest)
      else .error (.invalidValue (.number scalar.describe) expected)
    match scalar with
    | .unsigned n => within n
    | .negative n => within n
    | .double _ => .error (.invalidType (.number scalar.describe) expected)
  else .error (mismatch expected cs)

def domainNamed (name : String) : Except ReadError Domain :=
  match Domain.ofName? name with
  | some d => .ok d
  | none => .error (.unknownDomain name)

def readColon (cs : List Char) : Except ReadError (List Char) :=
  match skipSpace cs with
  | ':' :: rest => .ok rest
  | _ => .error .notJson

/-- A domain is its name, or an object whose one member has that name and no content. An object that
opens with anything but a text is not JSON. -/
def readDomain (cs : List Char) : Except ReadError (Domain × List Char) :=
  match skipSpace cs with
  | '"' :: rest => do
    let (pieces, rest) ← orNotJson (scanText rest)
    .ok (← domainNamed (← orNotJson (textOf? pieces)), rest)
  | '\x7b' :: rest =>
    match skipSpace rest with
    | '"' :: rest => do
      let (pieces, rest) ← orNotJson (scanText rest)
      let domain ← domainNamed (← orNotJson (textOf? pieces))
      match skipSpace (← readColon rest) with
      | 'n' :: 'u' :: 'l' :: 'l' :: rest =>
        match skipSpace rest with
        | '\x7d' :: rest => .ok (domain, rest)
        | _ => .error .notJson
      | rest => .error (mismatch "unit" rest)
    | _ => .error .notJson
  | _ => .error .notJson

/-- Where the next item of a list starts; none at the closing bracket, which is taken. -/
def nextItem (first : Bool) (cs : List Char) : Except ReadError (Bool × List Char) :=
  match skipSpace cs with
  | ']' :: rest => .ok (false, rest)
  | ',' :: rest =>
    if first then .ok (true, ',' :: rest)
    else match skipSpace rest with
      | [] => .error .notJson
      | ']' :: _ => .error .notJson
      | rest => .ok (true, rest)
  | [] => .error .notJson
  | rest => if first then .ok (true, rest) else .error .notJson

/-- The key of the next member; none at the closing brace, which is taken. -/
def nextKey (first : Bool) (cs : List Char) : Except ReadError (Option String × List Char) :=
  match skipSpace cs with
  | '\x7d' :: rest => .ok (none, rest)
  | '"' :: rest => if first then key rest else .error .notJson
  | ',' :: rest =>
    if first then .error .notJson
    else match skipSpace rest with
      | '"' :: rest => key rest
      | _ => .error .notJson
  | _ => .error .notJson
where
  key (rest : List Char) : Except ReadError (Option String × List Char) := do
    let (pieces, rest) ← orNotJson (scanText rest)
    .ok (some (← orNotJson (textOf? pieces)), rest)

def readItems {α : Type} (item : List Char → Except ReadError (α × List Char)) (fuel : Nat)
    (first : Bool) (cs : List Char) : Except ReadError (List α × List Char) :=
  match fuel with
  | 0 => .error .notJson
  | fuel + 1 => do
    let (more, rest) ← nextItem first cs
    if more then
      let (v, rest) ← item rest
      let (vs, rest) ← readItems item fuel false rest
      .ok (v :: vs, rest)
    else .ok ([], rest)

/-- Reads members. `enter` reads the value of a key that is known and files it. -/
def readMembers {α : Type}
    (enter : String → α → List Char → Option (Except ReadError (α × List Char)))
    (fuel : Nat) (first : Bool) (filed : α) (cs : List Char) : Except ReadError (α × List Char) :=
  match fuel with
  | 0 => .error .notJson
  | fuel + 1 => do
    let (key, rest) ← nextKey first cs
    match key with
    | none => .ok (filed, rest)
    | some key =>
      match enter key filed rest with
      | some reading =>
        let (filed, rest) ← reading
        readMembers enter fuel false filed rest
      | none =>
        let rest ← orNotJson (skipValue (← readColon rest))
        readMembers enter fuel false filed rest

def absent (name : String) : (shape : Shape) → Except ReadError shape.Value
  | .optional _ => .ok none
  | _ => .error (.missingField name)

/-- All fields, those that were not given being absent. -/
def complete : (fields : Fields) → fields.Partial → Except ReadError fields.Values
  | .nil, _ => .ok ()
  | .cons name shape rest, (given, filed) => do
    let v ← match given with
      | some v => .ok v
      | none => absent name shape
    .ok (v, ← complete rest filed)

def elements (n : Nat) : String :=
  toString n ++ if n = 1 then " element" else " elements"

def count : Fields → Nat
  | .nil => 0
  | .cons _ _ rest => count rest + 1

mutual

def readShape : (shape : Shape) → List Char → Except ReadError (shape.Value × List Char)
  | .text, cs => readText cs
  | .unsigned32, cs =>
    (readInteger "u32" 0 0xffffffff cs).map fun (n, rest) => (UInt32.ofNat n.toNat, rest)
  | .signed32, cs =>
    (readInteger "i32" (-0x80000000) 0x7fffffff cs).map fun (n, rest) => (Int32.ofInt n, rest)
  | .domain, cs => readDomain cs
  | .optional inner, cs =>
    match skipSpace cs with
    | 'n' :: 'u' :: 'l' :: 'l' :: rest => .ok (none, rest)
    | 'n' :: _ => .error .notJson
    | rest => (readShape inner rest).map fun (v, rest) => (some v, rest)
  | .list item, cs =>
    match skipSpace cs with
    | '[' :: rest => readItems (readShape item) (rest.length + 1) true rest
    | rest => .error (mismatch "a sequence" rest)
  | .record name fields, cs =>
    match skipSpace cs with
    | '\x7b' :: rest => do
      let (filed, rest) ←
        readMembers (enter fields) (rest.length + 1) true fields.nothing rest
      .ok (← complete fields filed, rest)
    | '[' :: rest => do
      let expected := "struct " ++ name ++ " with " ++ elements (count fields)
      let (vs, rest) ← readInOrder expected 0 fields rest
      match skipSpace rest with
      | ']' :: rest => .ok (vs, rest)
      | _ => .error .notJson
    | rest => .error (mismatch ("struct " ++ name) rest)

/-- Reads the value of the field with a given name behind its colon; none if there is no such
field. -/
def enter : (fields : Fields) → String → fields.Partial → List Char →
    Option (Except ReadError (fields.Partial × List Char))
  | .nil, _, _, _ => none
  | .cons name shape rest, key, (given, filed), cs =>
    if key = name then
      match given with
      | some _ => some (.error (.duplicateField name))
      | none => some do
        let (v, cs) ← readShape shape (← readColon cs)
        .ok ((some v, filed), cs)
    else (enter rest key filed cs).map fun reading =>
      reading.map fun (filed, cs) => ((given, filed), cs)

/-- Reads the fields as the items of a list, `place` of which have been read. -/
def readInOrder (expected : String) (place : Nat) : (fields : Fields) → List Char →
    Except ReadError (fields.Values × List Char)
  | .nil, cs => .ok ((), cs)
  | .cons _ shape rest, cs => do
    let (more, cs) ← nextItem (place == 0) cs
    if more then
      let (v, cs) ← readShape shape cs
      let (vs, cs) ← readInOrder expected (place + 1) rest cs
      .ok ((v, vs), cs)
    else .error (.invalidLength place expected)

end

def read (s : String) : Except ReadError Record := do
  let (vs, rest) ← readShape shape s.toList
  if skipSpace rest = [] then .ok (ofValues vs) else .error .notJson

end Record

end Sidecar
