/-! Glob patterns and how they are written. `?` and a class stand for one character of a name, `*`
for a run of them, and `**` as a whole component for directories. -/

namespace Sidecar.Glob

inductive Token where
  | literal (c : Char)
  | anyChar
  /-- One character inside (or, negated, outside) a list of ranges with both ends included. -/
  | oneOf (negated : Bool) (ranges : List (Char × Char))
  | run
  /-- `**` before more of the pattern: zero or more whole leading directories. -/
  | directories
  /-- `**` at the end: all that is left. -/
  | remainder
  deriving DecidableEq, Repr

inductive PatternError where
  | tooManyStars
  | starsInName
  | badClass
  deriving DecidableEq, Repr

def PatternError.message : PatternError → String
  | .tooManyStars => "wildcards are either regular `*` or recursive `**`"
  | .starsInName => "recursive wildcards must form a single path component"
  | .badClass => "invalid range pattern"

def classRanges : List Char → List (Char × Char)
  | lo :: '-' :: hi :: rest => (lo, hi) :: classRanges rest
  | c :: rest => (c, c) :: classRanges rest
  | [] => []

/-- Cuts a class body off: at least one character, which may be `]`, up to the next `]`. -/
def classBody : List Char → Option (List Char × List Char)
  | [] => none
  | first :: rest =>
    match rest.dropWhile (· ≠ ']') with
    | _ :: after => some (first :: rest.takeWhile (· ≠ ']'), after)
    | [] => none

def classToken : List Char → Option (Token × List Char)
  | '!' :: cs => (classBody cs).map fun (body, rest) => (.oneOf true (classRanges body), rest)
  | cs => (classBody cs).map fun (body, rest) => (.oneOf false (classRanges body), rest)

theorem classBody_length {cs body rest : List Char} (h : classBody cs = some (body, rest)) :
    rest.length < cs.length := by
  cases cs with
  | nil => simp [classBody] at h
  | cons first cs =>
    simp only [classBody] at h
    split at h
    next d after hd =>
      have hlen : (cs.dropWhile (· ≠ ']')).length ≤ cs.length :=
        (List.dropWhile_sublist _).length_le
      rw [hd] at hlen
      simp only [Option.some.injEq, Prod.mk.injEq] at h
      rw [← h.2]
      simp only [List.length_cons] at hlen ⊢
      omega
    next => simp at h

theorem classToken_length {cs rest : List Char} {tok : Token}
    (h : classToken cs = some (tok, rest)) : rest.length < cs.length := by
  unfold classToken at h
  split at h
  all_goals
    obtain ⟨⟨body, rest'⟩, hb, he⟩ := Option.map_eq_some_iff.mp h
    have := classBody_length hb
    cases he
    simp_all <;> omega

/-- Reads tokens. `fresh` says that a component starts here. -/
def tokens (fresh : Bool) (cs : List Char) : Except PatternError (List Token) :=
  match cs with
  | [] => .ok []
  | '?' :: cs => (tokens false cs).map (.anyChar :: ·)
  | '*' :: '*' :: '*' :: _ => .error .tooManyStars
  | '*' :: '*' :: cs =>
    if fresh then
      match cs with
      | [] => .ok [.remainder]
      | '/' :: [] => .ok [.remainder]
      | '/' :: c :: cs => (tokens true (c :: cs)).map (.directories :: ·)
      | _ => .error .starsInName
    else .error .starsInName
  | '*' :: cs => (tokens false cs).map (.run :: ·)
  | '[' :: cs =>
    match h : classToken cs with
    | some (tok, rest) =>
      have := classToken_length h
      (tokens false rest).map (tok :: ·)
    | none => .error .badClass
  | c :: cs => (tokens (c == '/') cs).map (.literal c :: ·)
  termination_by cs.length

structure Pattern where
  text : String
  tokens : List Token
  deriving DecidableEq, Repr

def Pattern.parse (text : String) : Except PatternError Pattern :=
  (Glob.tokens true text.toList).map (⟨text, ·⟩)

/-- The characters that a class names so that they stand for themselves. -/
def escape (cs : List Char) : List Char :=
  cs.flatMap fun c => if c ∈ ['?', '*', '[', ']'] then ['[', c, ']'] else [c]

namespace Pattern

def isRecursive (p : Pattern) : Bool :=
  p.tokens.any fun t => t == .directories || t == .remainder

def literal? (p : Pattern) : Option String :=
  (p.tokens.mapM fun | Token.literal c => some c | _ => none).map String.ofList

def opensWithDot (p : Pattern) : Bool :=
  p.tokens.head? == some (.literal '.')

end Pattern

end Sidecar.Glob
