import IngestionQueue.Text.Path
import IngestionQueue.Text.Width

/-!
# Tables in plain text

A table has rules of `+` and `-` above, between and below its rows, and bars between its cells. A column is as
wide as its widest cell, with a space on either side, and a cell of several lines makes its row as high.
-/

namespace IngestionQueue.Text.Grid

/-- The lines of a cell. -/
def cellLines (cell : String) : List (List Char) :=
  Path.splitAt (· == '\n') cell.toList

def cellWidth (cell : String) : Nat :=
  ((cellLines cell).map width).foldl max 0

/-- The widths of the columns, given the rows. -/
def columnWidths (rows : List (List String)) : List Nat :=
  let columns := (rows.map List.length).foldl max 0
  (List.range columns).map fun i => (rows.map fun row => cellWidth (row.getD i "")).foldl max 0

def rule (widths : List Nat) : List Char :=
  widths.foldl (fun line w => line ++ List.replicate (w + 2) '-' ++ ['+']) ['+']

/-- One line of a row: line `i` of each of its cells. -/
def rowLine (widths : List Nat) (row : List String) (i : Nat) : List Char :=
  (widths.zip row).foldl (fun line p =>
    let piece := (cellLines p.2).getD i []
    line ++ ' ' :: (piece ++ List.replicate (p.1 - width piece) ' ') ++ [' ', '|']) ['|']

def rowLines (widths : List Nat) (row : List String) : List (List Char) :=
  let height := (row.map fun cell => (cellLines cell).length).foldl max 1
  (List.range height).map (rowLine widths row)

/-- The lines of a table with a heading. -/
def lines (heading : List String) (rows : List (List String)) : List (List Char) :=
  let widths := columnWidths (heading :: rows)
  rule widths :: (heading :: rows).flatMap fun row => rowLines widths row ++ [rule widths]

/-- The text of a table, without a line end after the last rule. -/
def text (heading : List String) (rows : List (List String)) : String :=
  "\n".intercalate ((lines heading rows).map String.ofList)

end IngestionQueue.Text.Grid
