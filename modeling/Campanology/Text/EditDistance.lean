/-!
# Edit distance

The edit distance of two texts is the least number of characters to insert, delete or replace to
turn one into the other. It is found from the ends of the texts backwards, row by row: the row of a
text `xs` against `ys` holds the distances of `xs` from every end piece of `ys`, from `ys` itself
down to the empty text.
-/

namespace Campanology.Text

variable {α : Type}

/-- The row of the empty text: an end piece of `ys` takes as many steps as it has characters. -/
def emptyRow : (ys : List α) → List Nat
  | [] => [0]
  | y :: ys => (y :: ys).length :: emptyRow ys

/-- The row of `x :: xs`, from the row of `xs`. -/
def nextRow [DecidableEq α] (x : α) : (ys : List α) → (row : List Nat) → List Nat
  | [], row => [row.headD 0 + 1]
  | y :: ys, row =>
    let rest := nextRow x ys row.tail
    let replaced := row.tail.headD 0 + if x = y then 0 else 1
    min replaced (min (row.headD 0 + 1) (rest.headD 0 + 1)) :: rest

/-- The edit distance of two lists. -/
def editDistance [DecidableEq α] (xs ys : List α) : Nat :=
  (xs.foldr (fun x row => nextRow x ys row) (emptyRow ys)).headD 0

/-- The edit distance of two texts. -/
def distance (a b : String) : Nat := editDistance a.toList b.toList

end Campanology.Text
