/-! What a TOML document says. A table knows how it came about, since that decides whether it may be
extended: by a header of its own, as part of a longer header, or as part of a dotted key. -/

namespace Sidecar.Toml

inductive Origin where
  | header
  | longerHeader
  | dottedKey
  deriving DecidableEq, Repr

inductive Node where
  | text (s : String)
  | boolean (b : Bool)
  | integer (n : Int)
  | float
  | moment
  | array (items : List Node)
  /-- A table in braces, which nothing can be added to. -/
  | inline (entries : List (String × Node))
  | table (origin : Origin) (entries : List (String × Node))
  /-- Tables under double headers, in their order. -/
  | tables (elements : List (List (String × Node)))

abbrev Entries := List (String × Node)

namespace Entries

def set (es : Entries) (key : String) (n : Node) : Entries :=
  match es with
  | [] => [(key, n)]
  | (k, m) :: rest => if k = key then (k, n) :: rest else (k, m) :: set rest key n

/-- Adds an entry under a dotted key. Tables on the way are made, or extended if they came from
dotted keys; `open` says whether this table may take the entry itself. -/
def assign («open» : Bool) (es : Entries) : List String → String → Node → Option Entries
  | [], key, n => if «open» && (es.lookup key).isNone then some (es ++ [(key, n)]) else none
  | step :: path, key, n =>
    match es.lookup step with
    | none => (assign true [] path key n).map fun inner => set es step (.table .dottedKey inner)
    | some (.table .header _) => none
    | some (.table origin inner) =>
      (assign (origin == .dottedKey) inner path key n).map fun inner =>
        set es step (.table origin inner)
    | some (.tables elements) => do
      let last ← elements.getLast?
      let last ← assign false last path key n
      return set es step (.tables (elements.dropLast ++ [last]))
    | some _ => none

def modify (es : Entries) (f : Entries → Option Entries) : List String → Option Entries
  | [] => f es
  | step :: path =>
    match es.lookup step with
    | none => (modify [] f path).map fun inner => set es step (.table .longerHeader inner)
    | some (.table origin inner) =>
      (modify inner f path).map fun inner => set es step (.table origin inner)
    | some (.tables elements) => do
      let last ← elements.getLast?
      let last ← modify last f path
      return set es step (.tables (elements.dropLast ++ [last]))
    | some _ => none

def follow (es : Entries) : List String → Option Entries
  | [] => some es
  | step :: path =>
    match es.lookup step with
    | none => some []
    | some (.table _ inner) => follow inner path
    | some (.tables elements) => elements.getLast?.bind fun last => follow last path
    | some _ => none

end Entries

end Sidecar.Toml
