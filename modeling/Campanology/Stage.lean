import Campanology.Bell
import Campanology.Text.Blank

/-!
# Stages

A stage is the number of bells in use, from 1 to 36. Things of different stages are never combined:
an operation that is given two stages first asks that they match, and names itself in the refusal.
The stages from three to twenty-two bells have ringing names.
-/

namespace Campanology

/-- A number of bells. -/
structure Stage where
  bells : Nat
  pos : 0 < bells
  le_max : bells ≤ maxBells

@[ext] theorem Stage.ext {s t : Stage} (h : s.bells = t.bells) : s = t := by
  cases s; cases t; cases h; rfl

instance : DecidableEq Stage := fun s t =>
  if h : s.bells = t.bells then .isTrue (Stage.ext h)
  else .isFalse fun e => h (congrArg Stage.bells e)

/-- The number asked for is no stage. -/
structure StageFault where
  bells : Int
  deriving DecidableEq

def StageFault.message (f : StageFault) : String :=
  s!"Stage must have between 1 and {maxBells} bells: {f.bells}"

/-- Two stages met in an operation that needs them equal. The name of the operation may be empty. -/
structure StageMismatch where
  left : Stage
  right : Stage
  operation : String
  deriving DecidableEq

def StageMismatch.message (m : StageMismatch) : String :=
  let place := if m.operation = "" then "" else " in " ++ m.operation
  s!"Stage mismatch{place}: {m.left.bells} bells vs {m.right.bells} bells"

namespace Stage

/-- The stage with a given number of bells. -/
def ofInt (n : Int) : Except StageFault Stage :=
  if h : 1 ≤ n ∧ n ≤ maxBells then .ok ⟨n.toNat, by omega, by omega⟩
  else .error ⟨n⟩

/-! ## Names -/

/-- The ringing names, from three bells up. -/
def names : List String :=
  ["Singles", "Minimus", "Doubles", "Minor", "Triples", "Major", "Caters", "Royal", "Cinques",
    "Maximus", "Sextuples", "Fourteen", "Septuples", "Sixteen", "Octuples", "Eighteen", "Nonuples",
    "Twenty", "Decuples", "Twenty-two"]

/-- The stages that have a name, in ascending order. -/
def named : List Stage :=
  (List.finRange 20).map fun k : Fin 20 =>
    ⟨k + 3, by omega, by simp only [maxBells]; omega⟩

/-- The ringing name of a stage. -/
def name? (s : Stage) : Option String :=
  if 3 ≤ s.bells then names[s.bells - 3]? else none

/-- The stage with a given name; capitals and blanks around the name do not matter. Only ASCII
letters need lowering, since no other character lowers to a letter of a stage name. -/
def ofName? (text : String) : Option Stage :=
  let wanted := (Text.trim text.toList).map Char.toLower
  named.find? fun s => s.name?.any fun name => name.toList.map Char.toLower = wanted

/-- What a stage is called: its name, or else how many bells it has. -/
def title (s : Stage) : String :=
  s.name?.getD s!"{s.bells} bells"

/-- A stage as it is shown in a listing. -/
def describe (s : Stage) : String := s!"Stage({s.bells})"

/-! ## Bells and rows of a stage -/

/-- The heaviest bell of a stage. -/
def tenor (s : Stage) : Bell :=
  ⟨s.bells - 1, by have := s.pos; have := s.le_max; omega⟩

/-- The bells of a stage, treble first. -/
def allBells (s : Stage) : List Bell :=
  (List.finRange s.bells).map fun k : Fin s.bells => ⟨k, Nat.lt_of_lt_of_le k.isLt s.le_max⟩

/-- Whether the number of bells is odd. -/
def isOdd (s : Stage) : Bool := s.bells % 2 = 1

/-- How many orders `n` bells have. -/
def orders : Nat → Nat
  | 0 => 1
  | n + 1 => (n + 1) * orders n

/-- The number of different rows of a stage. -/
def extent (s : Stage) : Nat := orders s.bells

end Stage

/-! ## Things whose stage is not known beforehand -/

/-- A thing of some stage, together with that stage. -/
structure Staged (α : Stage → Type) where
  stage : Stage
  val : α stage

namespace Staged

variable {α : Stage → Type}

/-- A thing of a known stage. -/
def of {s : Stage} (x : α s) : Staged α := ⟨s, x⟩

instance [∀ s, DecidableEq (α s)] : DecidableEq (Staged α)
  | ⟨s, x⟩, ⟨t, y⟩ =>
    if h : s = t then
      if e : h ▸ x = y then .isTrue (by subst h; subst e; rfl)
      else .isFalse (by subst h; intro k; cases k; exact e rfl)
    else .isFalse fun k => h (congrArg stage k)

/-- The thing, if it is of the stage `s`. -/
def at? (x : Staged α) (s : Stage) : Option (α s) :=
  if h : x.stage = s then some (h ▸ x.val) else none

/-- The thing, which an operation needs to be of the stage `s`. -/
def require (x : Staged α) (s : Stage) (operation : String) : Except StageMismatch (α s) :=
  match x.at? s with
  | some y => .ok y
  | none => .error ⟨s, x.stage, operation⟩

@[simp] theorem at?_of {s : Stage} (x : α s) : (of x).at? s = some x := by
  simp [at?, of]

theorem at?_of_ne {x : Staged α} {s : Stage} (h : x.stage ≠ s) : x.at? s = none := by
  simp [at?, h]

@[simp] theorem require_of {s : Stage} (x : α s) (operation : String) :
    (of x).require s operation = .ok x := by
  simp [require]

theorem require_of_ne {x : Staged α} {s : Stage} (h : x.stage ≠ s) (operation : String) :
    x.require s operation = .error ⟨s, x.stage, operation⟩ := by
  simp [require, at?_of_ne h]

end Staged

section Staged

variable {α : Stage → Type} {s : Stage}

theorem exists_of {x : Staged α} (h : x.stage = s) : ∃ y : α s, x = .of y := by
  obtain ⟨t, y⟩ := x
  obtain rfl : t = s := h
  exact ⟨y, rfl⟩

/-- Nothing is refused of things which are of the stage. -/
theorem mapM_require_map_of (ys : List (α s)) (operation : String) :
    (ys.map Staged.of).mapM (fun x : Staged α => x.require s operation) = .ok ys := by
  induction ys with
  | nil => rfl
  | cons y ys ih =>
    rw [List.map_cons, List.mapM_cons, ih, Staged.require_of]
    rfl

/-- Things which all are of a stage are such things of that stage. -/
theorem exists_map_of {xs : List (Staged α)} (h : ∀ x ∈ xs, x.stage = s) :
    ∃ ys : List (α s), xs = ys.map .of := by
  induction xs with
  | nil => exact ⟨[], rfl⟩
  | cons x xs ih =>
    obtain ⟨ys, rfl⟩ := ih fun z hz => h z (by simp [hz])
    obtain ⟨y, rfl⟩ := exists_of (h x (by simp))
    exact ⟨y :: ys, rfl⟩

end Staged

/-- Refuses two different stages in the name of an operation. -/
def Stage.matching (s t : Stage) (operation : String) : Except StageMismatch Unit :=
  if s = t then .ok () else .error ⟨s, t, operation⟩

end Campanology
