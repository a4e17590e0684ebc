import Sidecar.Json.Number
import Sidecar.Json.Text

/-! JSON values, their indented text and a reader for any JSON text. -/

namespace Sidecar

inductive Json where
  | null
  | boolean (b : Bool)
  | integer (n : Int)
  /-- A number written with a fraction or an exponent, as it is written. -/
  | real (n : Json.Numeral)
  | text (s : String)
  | array (items : List Json)
  /-- Members in the order of the text, a repeated key included. -/
  | object (members : List (String × Json))

namespace Json

def isSpace (c : Char) : Bool :=
  c == ' ' || c == '\n' || c == '\t' || c == '\r'

def skipSpace (cs : List Char) : List Char :=
  cs.dropWhile isSpace

/-- Reads one value. `take` says what becomes of a string's pieces and `fuel` bounds the steps. -/
def readValue (take : List Piece → Option String) (fuel : Nat) (cs : List Char) :
    Option (Json × List Char) :=
  match fuel with
  | 0 => none
  | fuel + 1 =>
    match skipSpace cs with
    | 'n' :: 'u' :: 'l' :: 'l' :: rest => some (.null, rest)
    | 't' :: 'r' :: 'u' :: 'e' :: rest => some (.boolean true, rest)
    | 'f' :: 'a' :: 'l' :: 's' :: 'e' :: rest => some (.boolean false, rest)
    | '"' :: rest => do
      let (pieces, rest) ← scanText rest
      return (.text (← take pieces), rest)
    | '[' :: rest =>
      match skipSpace rest with
      | ']' :: rest => some (.array [], rest)
      | rest => (items fuel rest).map fun (js, rest) => (.array js, rest)
    | '\x7b' :: rest =>
      match skipSpace rest with
      | '\x7d' :: rest => some (.object [], rest)
      | rest => (members fuel rest).map fun (ms, rest) => (.object ms, rest)
    | rest => (scanNumeral rest).map fun (n, rest) =>
      (if n.isInteger then .integer n.toInt else .real n, rest)
where
  items (fuel : Nat) (cs : List Char) : Option (List Json × List Char) :=
    match fuel with
    | 0 => none
    | fuel + 1 => do
      let (j, rest) ← readValue take fuel cs
      match skipSpace rest with
      | ']' :: rest => return ([j], rest)
      | ',' :: rest =>
        let (js, rest) ← items fuel rest
        return (j :: js, rest)
      | _ => none
  members (fuel : Nat) (cs : List Char) : Option (List (String × Json) × List Char) :=
    match fuel with
    | 0 => none
    | fuel + 1 =>
      match skipSpace cs with
      | '"' :: rest => do
        let (pieces, rest) ← scanText rest
        let key ← take pieces
        match skipSpace rest with
        | ':' :: rest =>
          let (j, rest) ← readValue take fuel rest
          match skipSpace rest with
          | '\x7d' :: rest => return ([(key, j)], rest)
          | ',' :: rest =>
            let (ms, rest) ← members fuel rest
            return ((key, j) :: ms, rest)
          | _ => none
        | _ => none
      | _ => none

def textOf? (pieces : List Piece) : Option String :=
  (decode? pieces).map String.ofList

def parse? (s : String) : Option Json := do
  let (j, rest) ← readValue textOf? (2 * s.length + 2) s.toList
  if skipSpace rest = [] then some j else none

/-- What is left of a text behind its first value. Strings need not name characters here. -/
def skipValue (cs : List Char) : Option (List Char) :=
  (readValue (fun _ => some "") (2 * cs.length + 2) cs).map (·.2)

def indent (depth : Nat) : List Char :=
  '\n' :: List.replicate (2 * depth) ' '

def integerText (n : Int) : List Char :=
  (toString n).toList

def Numeral.text (n : Numeral) : List Char :=
  (if n.negative then ['-'] else []) ++ n.whole ++
    (match n.fraction with
      | some ds => '.' :: ds
      | none => []) ++
    match n.exponent with
    | some (negative, ds) => 'e' :: (if negative then '-' :: ds else ds)
    | none => []

/-- The text of a value, each item and member on a line of its own. -/
def pretty (depth : Nat) : Json → List Char
  | .null => "null".toList
  | .boolean b => (if b then "true" else "false").toList
  | .integer n => integerText n
  | .real n => n.text
  | .text s => quote s.toList
  | .array [] => ['[', ']']
  | .array (j :: js) =>
    '[' :: indent (depth + 1) ++ pretty (depth + 1) j ++ moreItems (depth + 1) js ++
      indent depth ++ [']']
  | .object [] => ['\x7b', '\x7d']
  | .object ((k, j) :: ms) =>
    '\x7b' :: indent (depth + 1) ++ quote k.toList ++ [':', ' '] ++ pretty (depth + 1) j ++
      moreMembers (depth + 1) ms ++ indent depth ++ ['\x7d']
where
  moreItems (depth : Nat) : List Json → List Char
    | [] => []
    | j :: js => ',' :: indent depth ++ pretty depth j ++ moreItems depth js
  moreMembers (depth : Nat) : List (String × Json) → List Char
    | [] => []
    | (k, j) :: ms =>
      ',' :: indent depth ++ quote k.toList ++ [':', ' '] ++ pretty depth j ++
        moreMembers depth ms

def prettyText (j : Json) : String :=
  String.ofList (j.pretty 0)

end Json

end Sidecar
