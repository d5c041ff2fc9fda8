import Campanology.Truth.Scan

/-!
# The table of quotients of a unit

Copies of a unit with rows `P 0, P 1, …` rung from the heads `g` and `h` share a row exactly if
`g * P a = h * P b` for some `a` and `b`, that is if `h⁻¹ * g = P b * (P a)⁻¹`. The table of a unit
holds all these quotients, each with the first pair `(a, b)` that yields it, its *witness*; then
heads are proved by looking up one quotient for each pair of them. A quotient is itself a *false
head*: a head whose copy shares a row with the unit.

* `QuotientTable.ofBlock` builds the table of a unit, `falseHeads` are its quotients in order.
* `witness?` looks up a pair of heads; `clashingPairs` lists the pairs which share a row, and
  `clashingPairsIn` has workers list them.
* `prove` reports on heads. A row which the unit repeats in itself is reported first.
-/

namespace Campanology

/-- The table of a unit. -/
structure QuotientTable (s : Stage) where
  unit : Block s
  /-- The witness of each quotient of two rows of the unit. -/
  witnesses : Std.HashMap (Row s) (Nat × Nat)
  /-- The first row that the unit repeats. -/
  inner : Option (Clash (Row s))

namespace QuotientTable

variable {s : Stage}

/-! ## Building -/

/-- Enters the quotients of all rows by the row `x`, which is at offset `a`. -/
def enterQuotients (rows : List (Row s)) (entered : Std.HashMap (Row s) (Nat × Nat))
    (x : Row s × Nat) : Std.HashMap (Row s) (Nat × Nat) :=
  let inverse := x.1⁻¹
  rows.zipIdx.foldl (fun t y => t.insertIfNew (y.1 * inverse) (x.2, y.2)) entered

/-- The table of a unit. -/
def ofBlock (unit : Block s) : QuotientTable s where
  unit := unit
  witnesses := unit.rows.zipIdx.foldl (enterQuotients unit.rows) ∅
  inner := (unit.prove true).clashes.head?

/-- Whether the unit repeats no row. -/
def unitIsTrue (t : QuotientTable s) : Bool := t.inner.isNone

/-- The number of false heads. -/
def size (t : QuotientTable s) : Nat := t.witnesses.size

/-- The false heads, ordered as words are. -/
def falseHeads (t : QuotientTable s) : List (Row s) :=
  t.witnesses.keys.mergeSort fun a b => !b.toList.lex a.toList

/-! ## Pairs of heads -/

/-- The offsets of the first row in common to the copies of two heads. -/
def witness? (t : QuotientTable s) (g h : Row s) : Option (Nat × Nat) :=
  t.witnesses[h⁻¹ * g]?

/-- Whether the copies of two heads share a row. -/
def clash (t : QuotientTable s) (g h : Row s) : Bool := (t.witness? g h).isSome

/-- All pairs of an item of a list and a later one, by the first and then by the second. -/
def pairs {α : Type} : List α → List (α × α)
  | [] => []
  | x :: xs => xs.map (x, ·) ++ pairs xs

/-- The pairs of heads whose copies share a row, as pairs of their indices. -/
def clashingPairs (t : QuotientTable s) (heads : List (Row s)) : List (Nat × Nat) :=
  ((pairs heads.zipIdx).filter fun p => t.clash p.1.1 p.2.1).map fun p => (p.1.2, p.2.2)

/-! ## Pairs found by workers -/

/-- The indices of the later heads whose copies share a row with that of the head at an index. -/
def partners (t : QuotientTable s) (heads : List (Row s)) (i : Nat) : List Nat :=
  match heads.zipIdx.drop i with
  | [] => []
  | g :: later => (later.filter fun h => t.clash g.1 h.1).map Prod.snd

/-- The partners of each head, found by workers who take the indices in the given order, and then
those which it leaves out. What is found is kept by index. -/
def partnersIn (t : QuotientTable s) (order : List Nat) (heads : List (Row s)) : List (List Nat) :=
  let find := fun (found : List (Option (List Nat))) i => found.set i (some (t.partners heads i))
  let found := (order ++ List.range heads.length).foldl find (List.replicate heads.length none)
  found.map (·.getD [])

/-- The pairs of heads whose copies share a row, as pairs of their indices, found by workers who
take the first of them in the given order. Without a second worker, and if there is no second head,
the heads are gone through one after another. -/
def clashingPairsIn (t : QuotientTable s) (maxWorkers : Option Int) (order : List Nat)
    (heads : List (Row s)) : List (Nat × Nat) :=
  let found :=
    if maxWorkers.any (1 < ·) ∧ 2 ≤ heads.length then t.partnersIn order heads
    else (List.range heads.length).map (t.partners heads)
  ((List.range heads.length).zip found).flatMap fun x => x.2.map (x.1, ·)

/-! ## Proving heads -/

/-- The clash of two heads, given with their indices. -/
def clash? (t : QuotientTable s) (p : (Row s × Nat) × Row s × Nat) : Option (Clash (Row s)) := do
  let (a, b) ← t.witness? p.1.1 p.2.1
  let row ← t.unit.rows[a]?
  let length := t.unit.rows.length
  return ⟨p.1.1 * row, ⟨p.1.2, a, p.1.2 * length + a⟩, ⟨p.2.2, b, p.2.2 * length + b⟩⟩

/-- The unit's own clash in the copy of the first head. -/
def innerClash? (t : QuotientTable s) (heads : List (Row s)) : Option (Clash (Row s)) := do
  let c ← t.inner
  let h ← heads.head?
  return ⟨h * c.row, ⟨0, c.first.offset, c.first.offset⟩, ⟨0, c.second.offset, c.second.offset⟩⟩

/-- Proves the copies of heads of the table's stage. -/
def prove (t : QuotientTable s) (heads : List (Row s)) (stop : Bool) : Report (Row s) :=
  match t.innerClash? heads, stop with
  | some c, true => ⟨[c], 0, .relational⟩
  | inner, _ =>
    let found := survey stop t.clash? (pairs heads.zipIdx)
    ⟨inner.toList ++ found.1, found.2, .relational⟩

/-! ## Heads of any stage -/

/-- Whether the copies of two heads of any stage share a row. -/
def clashAny (t : QuotientTable s) (g h : Staged Row) : Except StageMismatch Bool := do
  let g ← g.require s "is_false_pair"
  let h ← h.require s "is_false_pair"
  return t.clash g h

/-- The pairs of heads of any stage whose copies share a row. -/
def clashingPairsAny (t : QuotientTable s) (heads : List (Staged Row)) :
    Except StageMismatch (List (Nat × Nat)) := do
  let heads ← requireAll heads s "false_pairs"
  return t.clashingPairs heads

/-- The pairs of heads of any stage whose copies share a row, found by workers. -/
def clashingPairsAnyIn (t : QuotientTable s) (maxWorkers : Option Int) (order : List Nat)
    (heads : List (Staged Row)) : Except StageMismatch (List (Nat × Nat)) := do
  let heads ← requireAll heads s "false_pairs"
  return t.clashingPairsIn maxWorkers order heads

/-- Proves the copies of heads of any stage. -/
def proveHeads (t : QuotientTable s) (heads : List (Staged Row)) (stop : Bool) :
    Except StageMismatch (Report (Row s)) := do
  let heads ← requireAll heads s "check"
  return t.prove heads stop

end QuotientTable

end Campanology
