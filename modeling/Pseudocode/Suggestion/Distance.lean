/-!
# Edit distance

The least number of insertions, deletions and replacements of single characters that turn one text
into another. It is computed row by row: the row of a prefix of the first text holds its distances
to all prefixes of the second.
-/

namespace Pseudocode.Suggestion

/-- The cells of a row behind its first one. `left` is the cell before, and `diagonal` the cell
above that one; the remaining characters of the second text go with the remaining cells of the row
above. -/
def rowCells (a : Char) (left diagonal : Nat) : List Char → List Nat → List Nat
  | b :: bs, above :: aboves =>
    let cell := min (min (above + 1) (left + 1)) (diagonal + if a = b then 0 else 1)
    cell :: rowCells a cell above bs aboves
  | _, _ => []

/-- The row for one more character of the first text. -/
def nextRow (bs : List Char) (row : List Nat) (a : Char) : List Nat :=
  match row with
  | [] => []
  | diagonal :: aboves => (diagonal + 1) :: rowCells a (diagonal + 1) diagonal bs aboves

/-- The row of the whole first text. -/
def lastRow (as bs : List Char) : List Nat := as.foldl (nextRow bs) (List.range (bs.length + 1))

/-- Edit distance, counted in characters. -/
def editDistance (a b : String) : Nat := (lastRow a.toList b.toList).getLast?.getD 0

end Pseudocode.Suggestion
