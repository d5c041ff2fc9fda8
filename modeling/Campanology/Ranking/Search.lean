/-!
# Searching sorted lists

A search asks how many items at the beginning of a list have a property. If the property holds up to
some item and fails from there on, that is the answer. If it comes and goes, the answer depends on
the items that are looked at, and so these are fixed.

* `bisect` halves an interval of indices.
* `gallop` first takes longer and longer steps from the beginning, and then halves the last of them.

A list may be searched from its end. It is then given turned round, and the middle of an interval is
rounded the other way, so that it is the same item.
-/

namespace Campanology.Ranking

/-- The end from which a list is gone through: its beginning, or its end, where it is given turned
round. -/
inductive Direction
  | forward
  | backward
  deriving DecidableEq

/-- The middle of the indices from `low` to before `high`. -/
def Direction.middle (d : Direction) (low high : Nat) : Nat :=
  match d with
  | forward => (low + high) / 2
  | backward => (low + high - 1) / 2

theorem Direction.le_middle (d : Direction) {low high : Nat} (h : low < high) :
    low ≤ d.middle low high := by
  cases d <;> simp only [middle] <;> omega

theorem Direction.middle_lt (d : Direction) {low high : Nat} (h : low < high) :
    d.middle low high < high := by
  cases d <;> simp only [middle] <;> omega

variable {α : Type}

/-- How many items at the beginning have a property, if they are known to be from `low` to `high`
many. -/
def bisect (d : Direction) (holds : α → Bool) (xs : List α) (low high : Nat) : Nat :=
  if h : low < high then
    have := d.le_middle h
    have := d.middle_lt h
    match xs[d.middle low high]? with
    | some x =>
      if holds x then bisect d holds xs (d.middle low high + 1) high
      else bisect d holds xs low (d.middle low high)
    | none => low
  else low
termination_by high - low

/-- Longer and longer steps from the index `last` to `next` and on, as long as they stay below
`limit` and arrive at an index which is `good`. The last good index, and the next one, which is
not or is the limit. -/
def stride (good : Nat → Bool) (limit last next : Nat) : Nat × Nat :=
  if next < limit ∧ good next then stride good limit next (2 * next + 1)
  else (last, min next limit)
termination_by limit - next

/-- How many items at the beginning have a property. -/
def gallop (d : Direction) (holds : α → Bool) (xs : List α) : Nat :=
  match xs with
  | [] => 0
  | x :: _ =>
    if holds x then
      let (last, next) := stride (fun i => xs[i]?.any holds) xs.length 0 1
      bisect d holds xs (last + 1) next
    else 0

end Campanology.Ranking
