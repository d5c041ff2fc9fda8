import Campanology.Row.Algebra
import Campanology.Text.Slice

/-!
# Questions about a row

A row is asked for the bell in a place, for the bells of a slice, and for the place of a bell, in
numbers that may not fit it; and two rows whose stages are not known beforehand are multiplied.
-/

namespace Campanology

/-- A question which a row has no answer to. -/
inductive RowQueryFault
  /-- There is no such place. -/
  | noPlace
  /-- The number is beyond all indices. -/
  | noIndex
  /-- A slice takes no steps of zero. -/
  | zeroStep
  /-- The bell does not ring in the row, although there might be such a bell. -/
  | absent
  /-- There is no bell of such a number, in any row. -/
  | noBell
  deriving DecidableEq

namespace RowQueryFault

def message : RowQueryFault → String
  | noPlace => "index out of range"
  | noIndex => "cannot fit 'int' into an index-sized integer"
  | zeroStep => "slice step cannot be zero"
  | absent => "subsection not found"
  | noBell => "byte must be in range(0, 256)"

end RowQueryFault

namespace Row

variable {s : Stage}

/-- The bell in a place, which may be counted from the end. -/
def get (r : Row s) (i : Int) : Except RowQueryFault Nat :=
  match (indexFrom? s.bells i).bind fun p => r.toList[p]? with
  | some b => .ok b
  | none => .error (if isIndex i then .noPlace else .noIndex)

/-- The bells of a slice. -/
def slice (r : Row s) (choice : Slice) : Except RowQueryFault (List Nat) :=
  match choice.of? r.toList with
  | some bs => .ok bs
  | none => .error .zeroStep

/-- The place of the bell numbered `n`. A number below 256 which no bell of the row has is absent
from it; any other is no bell's number at all. -/
def find (r : Row s) (n : Int) : Except RowQueryFault Nat :=
  if h : 0 ≤ n ∧ n < s.bells then .ok (r.placeOf ⟨n.toNat, by omega⟩)
  else if 0 ≤ n ∧ n < 256 then .error .absent
  else .error .noBell

/-! ## Rows of any stages -/

/-- The product of two rows, if they are of one stage. -/
def multiply (a b : Staged Row) : Except StageMismatch (Staged Row) := do
  let b ← b.require a.stage "multiply"
  return .of (a.val * b)

/-- The row that turns `a` into `b`, if they are of one stage. -/
def transposition (a b : Staged Row) : Except StageMismatch (Staged Row) := do
  let b ← b.require a.stage "multiply"
  return .of (a.val.leftQuotient b)

end Row

end Campanology
