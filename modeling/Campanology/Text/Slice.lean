/-!
# Indices and slices

A place in a sequence may be counted from its end by a negative index. An index has 64 bits, one of
them for the sign. A slice names a start, a stop and a step, each of which may be left out, and may
be of any size. The start and the stop are first counted from the end if negative and then brought
into the sequence; the slice takes the start and every `step`-th index after it, in the direction of
the step, before reaching the stop.
-/

namespace Campanology

/-- The first number which is too large for an index. -/
def indexLimit : Int := 0x8000000000000000

/-- Whether a number may be an index at all. -/
def isIndex (i : Int) : Bool := -indexLimit ≤ i && i < indexLimit

/-- The index into a sequence of `length` items that `i` names, if there is such an item. -/
def indexFrom? (length : Nat) (i : Int) : Option Nat :=
  if 0 ≤ i then
    if i < length then some i.toNat else none
  else if 0 ≤ i + length then some (i + length).toNat else none

/-- A choice of indices. -/
structure Slice where
  start : Option Int
  stop : Option Int
  step : Option Int
  deriving DecidableEq

namespace Slice

/-- A bound of a slice counted from the front and brought between `low` and `high`. -/
def clamp (length : Nat) (low high i : Int) : Int :=
  let i := if i < 0 then i + length else i
  max low (min high i)

/-- The indices before `stop`, upward from `start` by `step`. -/
def upward (start stop step : Nat) : List Nat :=
  (List.range ((stop - start + (step - 1)) / step)).map fun k => start + k * step

/-- The indices of a sequence of `length` items which the slice takes, in the order in which it
takes them; none at all for a step of zero, which is no slice. -/
def indices? (s : Slice) (length : Nat) : Option (List Nat) :=
  let step := s.step.getD 1
  if step = 0 then none
  else if 0 < step then
    let start := (s.start.map (clamp length 0 length)).getD 0
    let stop := (s.stop.map (clamp length 0 length)).getD length
    some (upward start.toNat stop.toNat step.toNat)
  else
    -- counted from the far end, a downward slice is an upward one
    let start := (s.start.map (clamp length (-1) (length - 1))).getD (length - 1)
    let stop := (s.stop.map (clamp length (-1) (length - 1))).getD (-1)
    some ((upward (length - 1 - start).toNat (length - 1 - stop).toNat (-step).toNat).map
      fun k => length - 1 - k)

/-- The items that a slice takes from a list. -/
def of? {α : Type} (s : Slice) (xs : List α) : Option (List α) :=
  (s.indices? xs.length).map fun is => is.filterMap fun i => xs[i]?

end Slice

end Campanology
