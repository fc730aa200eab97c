/-
# Text grids

Rows of cells, drawn as a table: each column as wide as its widest cell, a
blank on both sides of each cell, bars between the cells, and a rule above
the first row, below it and below the last. Widths are counted in characters.

Key definitions: `Text.columnWidths`, `Text.gridRow`, `Text.gridRule`,
`Text.gridLines`.
-/
namespace TokenAutomata
namespace Text

/-- The greatest length in each column. -/
def columnWidths (rows : List (List (List Char))) : List Nat :=
  match rows with
  | [] => []
  | row :: rest =>
    rest.foldl (fun widths row => widths.zipWith max (row.map List.length)) (row.map List.length)

/-- A cell with blanks up to the width of its column, and its bar. -/
def gridCell (cell : List Char) (width : Nat) : List Char :=
  ' ' :: cell ++ List.replicate (width - cell.length + 1) ' ' ++ ['|']

def gridRow (widths : List Nat) (row : List (List Char)) : List Char :=
  '|' :: (row.zipWith gridCell widths).flatten

/-- The line above and below rows. -/
def gridRule (widths : List Nat) : List Char :=
  '+' :: widths.flatMap fun width => List.replicate (width + 2) '-' ++ ['+']

/-- The lines of a grid with its header row and its other rows. -/
def gridLines (header : List (List Char)) (rows : List (List (List Char))) : List (List Char) :=
  let widths := columnWidths (header :: rows)
  let rule := gridRule widths
  rule :: gridRow widths header :: rule :: rows.map (gridRow widths) ++ [rule]

end Text
end TokenAutomata
