/-! Cutting a text at a separator and putting it together again. A text with `n` separators has
`n + 1` pieces, none of which holds the separator. -/

namespace Sidecar.Text

def pieces (sep : Char) : List Char → List (List Char)
  | [] => [[]]
  | c :: cs =>
    if c = sep then [] :: pieces sep cs
    else match pieces sep cs with
      | [] => [[c]]
      | piece :: more => (c :: piece) :: more

/-- The pieces with the separator between them. -/
def joined (sep : List Char) : List (List Char) → List Char
  | [] => []
  | [piece] => piece
  | piece :: more => piece ++ sep ++ joined sep more

theorem pieces_ne_nil (sep : Char) (cs : List Char) : pieces sep cs ≠ [] := by
  cases cs with
  | nil => simp [pieces]
  | cons c cs =>
    simp only [pieces]
    split
    · simp
    · split <;> simp

theorem joined_cons_of_ne_nil (sep piece : List Char) {more : List (List Char)} (h : more ≠ []) :
    joined sep (piece :: more) = piece ++ sep ++ joined sep more := by
  cases more with
  | nil => contradiction
  | cons => rfl

theorem joined_pieces (sep : Char) (cs : List Char) : joined [sep] (pieces sep cs) = cs := by
  induction cs with
  | nil => rfl
  | cons c cs ih =>
    simp only [pieces]
    split
    next h => rw [joined_cons_of_ne_nil _ _ (pieces_ne_nil sep cs), ih, h]; rfl
    next h =>
      split
      next hn => exact absurd hn (pieces_ne_nil sep cs)
      next piece more hp =>
        rw [hp] at ih
        cases more with
        | nil => simpa [joined] using ih
        | cons => simpa [joined] using ih

theorem not_mem_of_mem_pieces {sep : Char} {cs piece : List Char} (h : piece ∈ pieces sep cs) :
    sep ∉ piece := by
  induction cs generalizing piece with
  | nil => simp_all [pieces]
  | cons c cs ih =>
    simp only [pieces] at h
    split at h
    next => rcases List.mem_cons.mp h with rfl | h <;> simp_all
    next hc =>
      split at h
      next hn => exact absurd hn (pieces_ne_nil sep cs)
      next first more hp =>
        rcases List.mem_cons.mp h with rfl | h
        · have := @ih first (by simp [hp])
          simp [this, Ne.symm hc]
        · exact ih (by simp [hp, h])

def piecesOf (sep : Char) (s : String) : List String :=
  (pieces sep s.toList).map String.ofList

def joinedBy (sep : String) (ss : List String) : String :=
  String.ofList (joined sep.toList (ss.map String.toList))

def withoutReturn (line : List Char) : List Char :=
  if line.getLast? = some '\r' then line.dropLast else line

/-- The lines of a text. A line feed ends a line, together with a carriage return before it. -/
def lines (cs : List Char) : List (List Char) :=
  let ps := pieces '\n' cs
  ps.dropLast.map withoutReturn ++ (ps.getLast?.filter (· ≠ [])).toList

def linesOf (s : String) : List String :=
  (lines s.toList).map String.ofList

theorem joinedBy_piecesOf (sep : Char) (s : String) :
    joinedBy (String.ofList [sep]) (piecesOf sep s) = s := by
  simp only [joinedBy, piecesOf, List.map_map, String.toList_ofList]
  rw [show String.toList ∘ String.ofList = id from funext fun _ => String.toList_ofList]
  simp [joined_pieces]

end Sidecar.Text
