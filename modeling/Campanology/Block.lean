import Campanology.Row.Algebra
import Campanology.Text.Slice

/-!
# Blocks

A block is a piece of ringing: rows in the order in which they are rung, and the row that would come
next, which is *left over* and not part of the block. It also says where its leads end. The ends
ascend and stay within the block; rows after the last end make a lead which is not complete.

* `leads` are the leads, a last incomplete one among them, and `leadHeads` their first rows and the
  leftover row.
* `locate` tells the lead in which an offset lies, and how far into it.
* `begunFrom` is the same ringing begun from another row.
-/

namespace Campanology

/-! ## Positions -/

/-- Where a row stands: in which lead or copy, at which index in it, and at which offset in all. -/
structure Position where
  lead : Nat
  index : Nat
  offset : Nat
  deriving DecidableEq

/-- A position in words. -/
def Position.words (lead index : Int) : String := s!"lead {lead}, row {index}"

def Position.text (p : Position) : String := Position.words p.lead p.index

/-! ## Blocks -/

/-- A block of a stage. -/
structure Block (s : Stage) where
  rows : List (Row s)
  leftover : Row s
  /-- The offsets at which leads are complete. -/
  leadEnds : List Nat
  ascending : (0 :: leadEnds).Pairwise (· < ·)
  within : ∀ e ∈ leadEnds, e ≤ rows.length
  deriving DecidableEq

/-- Why rows make no block, or why a block has no answer. -/
inductive BlockFault
  | mismatch (m : StageMismatch)
  | leadEnds (ends : List Int) (length : Nat)
  | noLead (number : Int)
  | noOffset (offset : Int) (length : Nat)
  | noRow
  /-- The number is beyond all indices. -/
  | noIndex
  /-- A slice takes no steps of zero. -/
  | zeroStep
  deriving DecidableEq

def BlockFault.message : BlockFault → String
  | mismatch m => m.message
  | leadEnds ends length =>
    s!"Lead ends must be strictly increasing within (0, {length}]: {Text.tuple ends}"
  | noLead number => s!"Block has no lead {number}"
  | noOffset offset length => s!"Offset {offset} outside block of {length} rows"
  | noRow => "tuple index out of range"
  | noIndex => "cannot fit 'int' into an index-sized integer"
  | zeroStep => "slice step cannot be zero"

namespace Block

variable {s : Stage}

/-- The block of the given rows. All must be of the stage, the leftover row last, and the lead ends
must ascend within the block. -/
def ofRows (s : Stage) (rows : List (Staged Row)) (leftover : Staged Row) (ends : List Int) :
    Except BlockFault (Block s) := do
  let rows ← (rows.mapM fun r : Staged Row => r.require s "block").mapError .mismatch
  let leftover ← (leftover.require s "block").mapError .mismatch
  if h : (∀ e ∈ ends, 0 ≤ e) ∧ (0 :: ends.map Int.toNat).Pairwise (· < ·) ∧
      ∀ e ∈ ends.map Int.toNat, e ≤ rows.length then
    return ⟨rows, leftover, ends.map Int.toNat, h.2.1, h.2.2⟩
  else throw (.leadEnds ends rows.length)

/-- A block is what is made of its own rows and lead ends. -/
theorem ofRows_self (b : Block s) :
    ofRows s (b.rows.map .of) (.of b.leftover) (b.leadEnds.map Nat.cast) = .ok b := by
  have ends : (b.leadEnds.map (Nat.cast : Nat → Int)).map Int.toNat = b.leadEnds := by
    simp [Function.comp_def]
  have valid : (∀ e ∈ b.leadEnds.map (Nat.cast : Nat → Int), 0 ≤ e) ∧
      (0 :: (b.leadEnds.map (Nat.cast : Nat → Int)).map Int.toNat).Pairwise (· < ·) ∧
      ∀ e ∈ (b.leadEnds.map (Nat.cast : Nat → Int)).map Int.toNat, e ≤ b.rows.length := by
    rw [ends]
    exact ⟨by simp, b.ascending, b.within⟩
  unfold ofRows
  rw [mapM_require_map_of, Staged.require_of]
  change (if h : _ then _ else _) = _
  rw [dif_pos valid]
  simp only [ends]
  rfl

/-- The rows, and the leftover row after them. -/
def allRows (b : Block s) : List (Row s) := b.rows ++ [b.leftover]

/-- The row a block begins with; the leftover row if there is no other. -/
def firstRow (b : Block s) : Row s := b.rows.headD b.leftover

/-- The rows in writing, one a line. -/
def text (b : Block s) : String := "\n".intercalate (b.rows.map Row.text)

/-! ## Leads -/

/-- Cuts a list, whose first item is at offset `start`, at the given offsets. What is left after the
last of them is a piece too, unless nothing is left. -/
def cut {α : Type} : (start : Nat) → (ends : List Nat) → List α → List (List α)
  | _, [], [] => []
  | _, [], x :: xs => [x :: xs]
  | start, e :: ends, xs => xs.take (e - start) :: cut e ends (xs.drop (e - start))

/-- The leads of a block. -/
def leads (b : Block s) : List (List (Row s)) := cut 0 b.leadEnds b.rows

/-- The number of leads. -/
def leadCount (b : Block s) : Nat := b.leads.length

/-- The first row of each lead, and the leftover row. -/
def leadHeads (b : Block s) : List (Row s) := b.leads.filterMap List.head? ++ [b.leftover]

/-- The rows of one lead. -/
def lead (b : Block s) (number : Int) : Except BlockFault (List (Row s)) :=
  match if 0 ≤ number then b.leads[number.toNat]? else none with
  | some rows => .ok rows
  | none => .error (.noLead number)

/-- The position of an offset. -/
def locate (b : Block s) (offset : Nat) : Position :=
  let before := b.leadEnds.takeWhile (· ≤ offset)
  ⟨before.length, offset - before.getLastD 0, offset⟩

/-- The position of an offset, which must lie in the block. -/
def position (b : Block s) (offset : Int) : Except BlockFault Position :=
  if 0 ≤ offset ∧ offset < b.rows.length then .ok (b.locate offset.toNat)
  else .error (.noOffset offset b.rows.length)

/-! ## Rows by index -/

/-- The row at an index, which may be counted from the end. -/
def get (b : Block s) (i : Int) : Except BlockFault (Row s) :=
  match (indexFrom? b.rows.length i).bind fun k => b.rows[k]? with
  | some r => .ok r
  | none => .error (if isIndex i then .noRow else .noIndex)

/-- The rows of a slice. -/
def slice (b : Block s) (choice : Slice) : Except BlockFault (List (Row s)) :=
  match choice.of? b.rows with
  | some rows => .ok rows
  | none => .error .zeroStep

/-! ## Another start -/

/-- The block with each row multiplied by `head` from the left. -/
def begunFrom (head : Row s) (b : Block s) : Block s where
  rows := b.rows.map (head * ·)
  leftover := head * b.leftover
  leadEnds := b.leadEnds
  ascending := b.ascending
  within := by simpa using b.within

/-- The block begun from a row which may be of any stage and must be of its own. -/
def begunFromAny (head : Staged Row) (b : Block s) : Except BlockFault (Block s) := do
  let head ← (head.require s "pre_multiply").mapError .mismatch
  return b.begunFrom head

@[simp] theorem begunFromAny_of (head : Row s) (b : Block s) :
    b.begunFromAny (.of head) = .ok (b.begunFrom head) := by
  rw [begunFromAny, Staged.require_of]
  rfl

end Block

end Campanology
