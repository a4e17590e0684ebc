import Sidecar.Text.Pieces
import Sidecar.Text.Width

/-! A table with rounded corners: a top border, the header, a separator, the rows and a bottom
border. A column is as wide as its widest line and a row as high as its tallest cell. -/

namespace Sidecar.Summary

/-- The lines of each cell of a row. -/
abbrev Row := List (List String)

structure Table where
  header : Row
  rows : List Row

namespace Table

def cell (text : String) : List String :=
  Text.piecesOf '\n' text

def ofTexts (header : List String) (rows : List (List String)) : Table :=
  ⟨header.map cell, rows.map (·.map cell)⟩

def cellWidth (lines : List String) : Nat :=
  (lines.map Text.width).foldl max 0

/-- The widths of the columns. -/
def widths (t : Table) : List Nat :=
  t.rows.foldl (fun ws row => List.zipWith max ws (row.map cellWidth)) (t.header.map cellWidth)

/-- Where a border stands, with what it is drawn with. -/
structure Border where
  (left cross right : String)

def Border.top : Border := ⟨"╭", "┬", "╮"⟩
def Border.separator : Border := ⟨"├", "┼", "┤"⟩
def Border.bottom : Border := ⟨"╰", "┴", "╯"⟩

def Border.line (b : Border) (ws : List Nat) : String :=
  b.left ++ b.cross.intercalate (ws.map fun w => String.ofList (List.replicate (w + 2) '─')) ++
    b.right

def height (row : Row) : Nat :=
  (row.map List.length).foldl max 0

/-- A line of a cell between blanks, filled up to the width of its column. -/
def padded (w : Nat) (line : String) : String :=
  " " ++ line ++ String.ofList (List.replicate (w - Text.width line) ' ') ++ " "

/-- The line of a row with a given number; cells that have no such line are blank. -/
def rowLine (ws : List Nat) (row : Row) (n : Nat) : String :=
  "│" ++ "│".intercalate (List.zipWith (fun w lines => padded w (lines.getD n "")) ws row) ++ "│"

def rowLines (ws : List Nat) (row : Row) : List String :=
  (List.range (height row)).map (rowLine ws row)

def lines (t : Table) : List String :=
  let ws := t.widths
  Border.top.line ws :: rowLines ws t.header ++ Border.separator.line ws ::
    t.rows.flatMap (rowLines ws) ++ [Border.bottom.line ws]

def text (t : Table) : String :=
  "\n".intercalate t.lines

end Table

end Sidecar.Summary
