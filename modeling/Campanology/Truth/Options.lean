import Campanology.Truth.Scan

/-!
# Options for proving

Options say how ringing is proved, what each head begins, whether to stop at the first clash, how
many workers may look up pairs, and within which caps a course is rung.
-/

namespace Campanology

/-- Options for proving. -/
structure Options where
  approach : Approach
  unit : UnitKind
  stopAtFirst : Bool
  /-- How many workers there are, if pairs are not looked up one after another. -/
  maxWorkers : Option Nat
  settings : Settings
  workers_pos : ∀ n ∈ maxWorkers, 1 ≤ n
  deriving DecidableEq

/-- The number of workers asked for is not a positive one. -/
structure WorkersFault where
  given : Int
  deriving DecidableEq

def WorkersFault.message (f : WorkersFault) : String :=
  s!"max_workers must be at least 1: {f.given}"

namespace Options

/-- The options used if nothing is said. -/
def standard : Options := ⟨.direct, .course, true, none, .standard, nofun⟩

/-- Options with a number of workers, if any, which must be positive. -/
def make (approach : Approach) (unit : UnitKind) (stopAtFirst : Bool) (maxWorkers : Option Int)
    (settings : Settings) : Except WorkersFault Options :=
  match maxWorkers with
  | none => .ok ⟨approach, unit, stopAtFirst, none, settings, nofun⟩
  | some n =>
    if h : 1 ≤ n then
      .ok ⟨approach, unit, stopAtFirst, some n.toNat, settings, by simp; omega⟩
    else .error ⟨n⟩

end Options

end Campanology
