/-! What a terminal would show of a text if it acted on nothing in it: control characters and escape
sequences are left out, line breaks and tabs are kept. Ordinary text is shown as it is. -/

namespace Sidecar.Text

inductive Sequence where
  | opened
  | intermediate
  /-- A control sequence: it ends with a letter. -/
  | control
  | device
  | deviceParameter
  | deviceIntermediate
  /-- A string that only the string terminator ends. -/
  | body
  /-- An operating system command: a bell ends it. -/
  | command
  deriving DecidableEq, Repr

inductive Scan where
  | plain
  | within (q : Sequence)
  /-- A line break or tab in a sequence lets text through up to the next control character; then
  the sequence goes on. -/
  | interrupted (q : Sequence)
  deriving DecidableEq, Repr

def isBreak (c : Char) : Bool :=
  c == '\t' || c == '\n' || c == '\x0c' || c == '\r'

def shows (c : Char) : Bool :=
  isBreak c || decide (0x20 ≤ c.toNat ∧ c.toNat ≠ 0x7f)

/-- The byte of the string terminator in the UTF-8 form of a character counts as well. -/
def endsBody (c : Char) : Bool :=
  (String.utf8EncodeChar c).contains 0x9c

def isBetween (lo hi : Nat) (c : Char) : Bool :=
  decide (lo ≤ c.toNat ∧ c.toNat ≤ hi)

namespace Sequence

def letsThrough : Sequence → Bool
  | opened => true
  | intermediate => true
  | control => true
  | _ => false

/-- What the sequence is after a character that is neither an escape nor a cancel character. -/
def continued (q : Sequence) (c : Char) : Scan :=
  match q with
  | opened =>
    if c = '[' then .within control
    else if c = ']' then .within command
    else if c = 'P' then .within device
    else if c = 'X' ∨ c = '^' ∨ c = '_' then .within body
    else if isBetween 0x20 0x2f c then .within intermediate
    else if isBetween 0x30 0x7e c then .plain
    else .within q
  | intermediate => if isBetween 0x30 0x7e c then .plain else .within q
  | control => if isBetween 0x40 0x7e c then .plain else .within q
  | device =>
    if isBetween 0x20 0x2f c then .within deviceIntermediate
    else if isBetween 0x30 0x3f c then .within deviceParameter
    else if isBetween 0x40 0x7e c then .within body
    else .within q
  | deviceParameter =>
    if isBetween 0x20 0x2f c then .within deviceIntermediate
    else if isBetween 0x3c 0x7e c then .within body
    else .within q
  | deviceIntermediate => if isBetween 0x30 0x7e c then .within body else .within q
  | body => if endsBody c then .plain else .within q
  | command => if c = '\x07' then .plain else .within q

end Sequence

def Scan.controlled (s : Scan) (c : Char) : Scan :=
  if c = '\x1b' then .within .opened
  else if c = '\x18' ∨ c = '\x1a' then .plain
  else match s with
    | .plain => .plain
    | .within q => q.continued c
    | .interrupted q => q.continued c

def Scan.step (s : Scan) (c : Char) : Bool × Scan :=
  match s with
  | .plain => if shows c then (true, .plain) else (false, s.controlled c)
  | .within q =>
    if q.letsThrough && isBreak c then (true, .interrupted q) else (false, s.controlled c)
  | .interrupted q =>
    if shows c then (true, if c.toNat < 0x80 then .interrupted q else .plain)
    else (false, s.controlled c)

def Scan.after (s : Scan) (cs : List Char) : Scan :=
  cs.foldl (fun s c => (s.step c).2) s

def visible : Scan → List Char → List Char
  | _, [] => []
  | s, c :: cs => if (s.step c).1 then c :: visible (s.step c).2 cs else visible (s.step c).2 cs

inductive Span where
  | running (s : String)
  | setOff (s : String)
  deriving DecidableEq, Repr

/-- What is shown of a message. Sequences do not reach across the ends of a text that is set off. -/
def visibleSpans : Scan → List Span → List Char
  | _, [] => []
  | s, .running t :: more => visible s t.toList ++ visibleSpans (s.after t.toList) more
  | _, .setOff t :: more => visible .plain t.toList ++ visibleSpans .plain more

def spansText (spans : List Span) : String :=
  String.ofList (visibleSpans .plain spans)

end Sidecar.Text
