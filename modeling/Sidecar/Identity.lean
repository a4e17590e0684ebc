import Sidecar.Path

/-! What a file's name says about it: its content id, the year that it covers and its media type. -/

namespace Sidecar

/-- The field of law that content belongs to. -/
inductive Domain where
  | tax
  | labor
  deriving DecidableEq, Repr

namespace Domain

def name : Domain → String
  | .tax => "tax"
  | .labor => "labor"

/-- What opens the content ids of a domain. -/
def idPrefix : Domain → String
  | .tax => "TAX"
  | .labor => "LABOR"

def ofName? : String → Option Domain
  | "tax" => some .tax
  | "labor" => some .labor
  | _ => none

theorem ofName?_eq_some_iff {s : String} {d : Domain} : ofName? s = some d ↔ s = d.name := by
  constructor
  · intro h
    unfold ofName? at h
    split at h <;> cases h <;> rfl
  · rintro rfl
    cases d <;> rfl

def unknownMessage (s : String) : String :=
  "Unknown domain: '" ++ s ++ "' (expected tax or labor)"

end Domain

namespace Identity

def isLetterOrDigit (c : Char) : Bool :=
  c.isAlphanum

/-- Equality without regard to case as Unicode folds it; `ſ` is the one letter beyond ASCII that
folds to a letter of a known extension. -/
def sameLetter (lower c : Char) : Bool :=
  c.toLower == lower || lower == 's' && c == 'ſ'

def knownExtensions : List (List Char) :=
  [".json".toList, ".csv".toList, ".sql".toList]

/-- A text that spells `lower`, its case aside. -/
def spells (lower text : List Char) : Bool :=
  lower.length == text.length && (lower.zip text).all fun (l, c) => sameLetter l c

/-- Without one known extension at the end. -/
def withoutExtension (name : List Char) : List Char :=
  match knownExtensions.find? fun e => spells e (name.drop (name.length - e.length)) with
  | some e => name.take (name.length - e.length)
  | none => name

def lastSegment (path : List Char) : List Char :=
  (path.reverse.takeWhile (· ≠ '/')).reverse

/-- Each stretch of characters other than ASCII letters and digits made one underscore. -/
def underscored : List Char → List Char
  | [] => []
  | [c] => if isLetterOrDigit c then [c] else ['_']
  | c :: d :: cs =>
    if isLetterOrDigit c then c :: underscored (d :: cs)
    else if isLetterOrDigit d then '_' :: underscored (d :: cs)
    else underscored (d :: cs)

def trimUnderscores (cs : List Char) : List Char :=
  ((cs.dropWhile (· == '_')).reverse.dropWhile (· == '_')).reverse

/-- What a content id says behind its domain. -/
def token (relPath : String) : List Char :=
  trimUnderscores ((underscored (withoutExtension (lastSegment relPath.toList))).map Char.toUpper)

def contentId (d : Domain) (relPath : String) : String :=
  d.idPrefix ++ "_" ++ String.ofList (token relPath)

/-- The maximal runs of ASCII letters and digits. -/
def alnumRuns (cs : List Char) : List (List Char) :=
  match cs with
  | [] => []
  | c :: cs =>
    if isLetterOrDigit c then
      (c :: cs.takeWhile isLetterOrDigit) :: alnumRuns (cs.dropWhile isLetterOrDigit)
    else alnumRuns cs
  termination_by cs.length
  decreasing_by
    · have := (List.dropWhile_sublist (l := cs) isLetterOrDigit).length_le
      simp only [List.length_cons]
      omega
    · simp

def digitValue (c : Char) : Nat :=
  c.toNat - '0'.toNat

/-- The year that four characters spell, if they spell one from 1900 to 2099. -/
def yearOf? (a b c d : Char) : Option Nat :=
  if (a = '1' ∧ b = '9' ∨ a = '2' ∧ b = '0') ∧ c.isDigit ∧ d.isDigit then
    some (1000 * digitValue a + 100 * digitValue b + 10 * digitValue c + digitValue d)
  else none

/-- The leftmost year in a text, even inside a longer number. -/
def firstYear? : List Char → Option Nat
  | a :: b :: c :: d :: rest =>
    match yearOf? a b c d with
    | some y => some y
    | none => firstYear? (b :: c :: d :: rest)
  | _ => none

def inferYear (stem : String) : Option Int32 :=
  (firstYear? stem.toList).map Int32.ofNat

/-- The day on which a range of validity that is still open ends. -/
def openEnd : String := "9999-12-31"

def effectiveFrom (year : Option Int32) : Option String :=
  year.map fun y => toString y.toInt ++ "-01-01"

def effectiveTo (year : Option Int32) : Option String :=
  year.map fun _ => openEnd

def mediaType (p : Path) : String :=
  match p.extension? with
  | some "json" => "application/json"
  | some "csv" => "text/csv"
  | some "sql" => "application/sql"
  | _ => "application/octet-stream"

end Identity

end Sidecar
