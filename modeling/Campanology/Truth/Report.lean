import Campanology.Block

/-!
# Reports on truth

Ringing is *true* if no row is rung twice, and otherwise *false*. To prove ringing is to look for
repeated rows. A report lists those found, each as a *clash* of two positions of one row, and how
much was looked at to find them.

`survey` is the search common to all proofs: it goes through candidates in order, and may stop at
the first find.
-/

namespace Campanology

/-- How ringing is proved: by comparing all rows, or by looking up pairs of heads. -/
inductive Approach
  | direct
  | relational
  deriving DecidableEq

namespace Approach

def text : Approach → String
  | direct => "direct"
  | relational => "relational"

/-- The approach of a given name. -/
def ofText? (name : String) : Option Approach :=
  [direct, relational].find? fun a => a.text = name

end Approach

/-- A row which is rung at two positions. -/
structure Clash (α : Type) where
  row : α
  first : Position
  second : Position
  deriving DecidableEq

/-- The outcome of proving ringing. -/
structure Report (α : Type) where
  clashes : List (Clash α)
  /-- How many rows or pairs of heads were looked at. -/
  examined : Nat
  approach : Approach
  deriving DecidableEq

namespace Clash

/-- A clash with another description of the row. -/
def map {α β : Type} (f : α → β) (c : Clash α) : Clash β := ⟨f c.row, c.first, c.second⟩

end Clash

namespace Report

/-- A report with another description of the rows. -/
def map {α β : Type} (f : α → β) (r : Report α) : Report β :=
  ⟨r.clashes.map (Clash.map f), r.examined, r.approach⟩

/-- A report on rows of one stage as one on rows of any. -/
def staged {s : Stage} (r : Report (Row s)) : Report (Staged Row) := r.map .of

/-- Whether the ringing is true, as far as it was looked at. -/
def isTrue {α : Type} (r : Report α) : Bool := r.clashes.isEmpty

end Report

/-! ## Searching -/

/-- The items of a list that a search for hits looks at: all of them, or with `stop` those up to the
first hit. -/
def lookedAt {α : Type} (stop : Bool) (isHit : α → Bool) (xs : List α) : List α :=
  if stop then xs.take ((xs.takeWhile fun x => !isHit x).length + 1) else xs

/-- What `hit` finds in a list, and how many items were looked at to find it. -/
def survey {α β : Type} (stop : Bool) (hit : α → Option β) (xs : List α) : List β × Nat :=
  let looked := lookedAt stop (fun x => (hit x).isSome) xs
  (looked.filterMap hit, looked.length)

end Campanology
