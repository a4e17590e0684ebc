import Sidecar.Glob.Pattern

/-! Which texts a pattern matches: a relation, and a matcher that keeps the set of places in the
text that the tokens so far can end at. -/

namespace Sidecar.Glob

/-- A character that a class names. -/
def InRanges (ranges : List (Char × Char)) (c : Char) : Prop :=
  ∃ r ∈ ranges, r.1 ≤ c ∧ c ≤ r.2

def inRanges (ranges : List (Char × Char)) (c : Char) : Bool :=
  ranges.any fun r => decide (r.1 ≤ c) && decide (c ≤ r.2)

theorem inRanges_iff {ranges : List (Char × Char)} {c : Char} :
    inRanges ranges c = true ↔ InRanges ranges c := by
  simp [inRanges, InRanges]

/-- Text made of whole directories: empty, or ending in a slash. -/
def IsDirectories (cs : List Char) : Prop :=
  cs = [] ∨ cs.getLast? = some '/'

inductive Matches : List Token → List Char → Prop where
  | nil : Matches [] []
  | literal {c ts cs} : Matches ts cs → Matches (.literal c :: ts) (c :: cs)
  | anyChar {d ts cs} : d ≠ '/' → Matches ts cs → Matches (.anyChar :: ts) (d :: cs)
  | inside {ranges d ts cs} : d ≠ '/' → InRanges ranges d → Matches ts cs →
      Matches (.oneOf false ranges :: ts) (d :: cs)
  | outside {ranges d ts cs} : d ≠ '/' → ¬ InRanges ranges d → Matches ts cs →
      Matches (.oneOf true ranges :: ts) (d :: cs)
  | run {taken ts cs} : '/' ∉ taken → Matches ts cs → Matches (.run :: ts) (taken ++ cs)
  | directories {taken ts cs} : IsDirectories taken → Matches ts cs →
      Matches (.directories :: ts) (taken ++ cs)
  | remainder {ts cs} : Matches ts [] → Matches (.remainder :: ts) cs

/-- What a text leaves when a run is taken from its start. -/
def afterRun : List Char → List (List Char)
  | [] => [[]]
  | c :: cs => (c :: cs) :: if c = '/' then [] else afterRun cs

/-- What a text leaves behind each of its slashes. -/
def afterSlashes : List Char → List (List Char)
  | [] => []
  | c :: cs => if c = '/' then cs :: afterSlashes cs else afterSlashes cs

/-- What a text can leave when a token has taken its share. -/
def Token.rests (t : Token) (cs : List Char) : List (List Char) :=
  match t, cs with
  | .run, cs => afterRun cs
  | .directories, cs => cs :: afterSlashes cs
  | .remainder, _ => [[]]
  | _, [] => []
  | .literal c, d :: cs => if c = d then [cs] else []
  | .anyChar, d :: cs => if d ≠ '/' then [cs] else []
  | .oneOf negated ranges, d :: cs =>
    if d ≠ '/' ∧ inRanges ranges d = !negated then [cs] else []

/-- All rests are ends of one text, so each is known by its length. -/
def distinct (rests : List (List Char)) : List (List Char) :=
  rests.foldl (fun kept r => if kept.any (·.length == r.length) then kept else r :: kept) []

def matchTokens (ts : List Token) (rests : List (List Char)) : Bool :=
  match ts with
  | [] => rests.any (·.isEmpty)
  | t :: ts => matchTokens ts (distinct (rests.flatMap t.rests))

namespace Pattern

def «matches» (p : Pattern) (text : String) : Bool :=
  matchTokens p.tokens [text.toList]

def Matches (p : Pattern) (text : String) : Prop :=
  Glob.Matches p.tokens text.toList

end Pattern

end Sidecar.Glob
