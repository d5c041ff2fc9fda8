import Std.Data.HashMap
import Campanology.Method.Basic
import Campanology.Truth.Report

/-!
# Proving ringing row by row

The rows of a block are compared with each other: every row which has been rung before clashes with
the first time it was rung. A unit, such as a plain course, may be rung from several *heads*; then
the rows of all these copies are compared, and a position tells the copy in the place of the lead.

* `repeats` finds the repeated items of any list.
* `Block.prove` proves a block, `Block.proveCopies` and `Block.proveHeads` the copies of a unit.
* `Method.prove` and `Method.proveCourses` prove the plain course of a method and its courses.
-/

namespace Campanology

/-! ## Repeated items -/

/-- Where each item of a list stands for the first time, the list beginning at `offset`. -/
def firstOffsets {α : Type} [BEq α] [Hashable α] (offset : Nat) (xs : List α) :
    Std.HashMap α Nat :=
  (xs.zipIdx offset).foldl (fun seen x => seen.insertIfNew x.1 x.2) ∅

/-- The repeated items of a list, each with the offset at which it stands for the first time and the
offset at which it stands again; and how many items were looked at. -/
def repeats {α : Type} [BEq α] [Hashable α] (stop : Bool) (xs : List α) :
    List (α × Nat × Nat) × Nat :=
  let seen := firstOffsets 0 xs
  survey stop (fun x => (seen[x.1]?.filter (· < x.2)).map fun first => (x.1, first, x.2)) xs.zipIdx

/-- The report on a list of rows, whose offsets are located in some way. -/
def reportRepeats {s : Stage} (stop : Bool) (locate : Nat → Position) (rows : List (Row s)) :
    Report (Row s) :=
  let found := repeats stop rows
  ⟨found.1.map fun c => ⟨c.1, locate c.2.1, locate c.2.2⟩, found.2, .direct⟩

/-- Rows which an operation needs to be of the stage `s`. -/
def requireAll (rows : List (Staged Row)) (s : Stage) (operation : String) :
    Except StageMismatch (List (Row s)) :=
  rows.mapM fun r : Staged Row => r.require s operation

/-! ## Blocks and copies of a unit -/

namespace Block

variable {s : Stage}

/-- Proves the rows of a block, the leftover row apart. -/
def prove (b : Block s) (stop : Bool) : Report (Row s) :=
  reportRepeats stop b.locate b.rows

/-- The rows of the copies of a unit rung from heads, one copy after another. -/
def copies (unit : Block s) (heads : List (Row s)) : List (Row s) :=
  heads.flatMap fun h => unit.rows.map (h * ·)

/-- The position of an offset in copies of `length` rows each. -/
def locateCopy (length offset : Nat) : Position :=
  ⟨offset / length, offset % length, offset⟩

/-- Proves the copies of a unit rung from heads of its stage. -/
def proveCopies (unit : Block s) (heads : List (Row s)) (stop : Bool) : Report (Row s) :=
  reportRepeats stop (locateCopy unit.rows.length) (unit.copies heads)

/-- Proves the copies of a unit rung from heads of any stage. -/
def proveHeads (unit : Block s) (heads : List (Staged Row)) (stop : Bool) :
    Except StageMismatch (Report (Row s)) := do
  let heads ← requireAll heads s "check_heads"
  return unit.proveCopies heads stop

end Block

/-! ## Methods -/

/-- What each head begins: a plain course, or a single lead. -/
inductive UnitKind
  | course
  | lead
  deriving DecidableEq

namespace UnitKind

def text : UnitKind → String
  | course => "course"
  | lead => "lead"

/-- The kind of unit of a given name. -/
def ofText? (name : String) : Option UnitKind :=
  [course, lead].find? fun k => k.text = name

end UnitKind

namespace Method

/-- The unit that is begun by each head. -/
def unit (m : Method) (kind : UnitKind) (settings : Option Settings) :
    Except (Unclosed m.stage) (Block m.stage) :=
  match kind with
  | .lead => .ok (m.leadFrom (Row.rounds m.stage))
  | .course => m.plainCourse settings

/-- Proves the plain course. -/
def prove (m : Method) (settings : Option Settings) (stop : Bool) :
    Except (Unclosed m.stage) (Report (Row m.stage)) := do
  let course ← m.plainCourse settings
  return course.prove stop

/-- Proves the courses of some course heads. -/
def proveCourses (m : Method) (heads : List (Staged Row)) (settings : Option Settings)
    (stop : Bool) : Except RingingFault (Report (Row m.stage)) := do
  let course ← (m.plainCourse settings).mapError Unclosed.fault
  (course.proveHeads heads stop).mapError .mismatch

end Method

end Campanology
