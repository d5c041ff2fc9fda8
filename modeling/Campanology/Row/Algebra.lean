import Campanology.Row.Basic

/-!
# The algebra of rows

A row rearranges the places, so two rows of a stage have a product: in `a * b` the bell in place `p`
is the one that `a` has in the place `b` names at `p`, so that `b` acts first. Rounds is the unit,
and the inverse of a row has in place `b` the place of bell `b`.

* `pow` raises a row to any whole power by repeated squaring.
* `leftQuotient` is the row by which one row is turned into another.
* `cycles` are the circles in which the places move, each written from its lowest place; their
  lengths give the order of a row (`order`) and its sign (`parity`).
-/

namespace Campanology

/-- The sign of a row: whether it takes an even or an odd number of swaps to reach from rounds. -/
inductive Parity
  | even
  | odd
  deriving DecidableEq

namespace Parity

/-- The sign of a number of swaps. -/
def ofSwaps (n : Nat) : Parity := if n % 2 = 0 then even else odd

def text : Parity → String
  | even => "even"
  | odd => "odd"

end Parity

namespace Row

variable {s : Stage}

/-! ## Products -/

instance : One (Row s) := ⟨rounds s⟩

instance : Mul (Row s) where
  mul a b := ofFn (fun p => a.bellAt (b.bellAt p)) fun _ _ h =>
    b.injective _ _ (a.injective _ _ h)

instance : Inv (Row s) where
  inv a := ofFn (fun b => a.placeOf b) fun b c h => by
    rw [← a.bellAt_placeOf b, ← a.bellAt_placeOf c, h]

@[simp] theorem bellAt_one (p : Fin s.bells) : (1 : Row s).bellAt p = p := bellAt_rounds p

@[simp] theorem bellAt_mul (a b : Row s) (p : Fin s.bells) :
    (a * b).bellAt p = a.bellAt (b.bellAt p) :=
  bellAt_ofFn ..

@[simp] theorem bellAt_inv (a : Row s) (b : Fin s.bells) : a⁻¹.bellAt b = a.placeOf b :=
  bellAt_ofFn ..

/-- The row `x` with `a * x = b`. -/
def leftQuotient (a b : Row s) : Row s := a⁻¹ * b

/-! ## Powers -/

/-- A row times itself `k` times. -/
def powNat (r : Row s) (k : Nat) : Row s :=
  if k = 0 then 1
  else
    let half := r.powNat (k / 2)
    if k % 2 = 0 then half * half else half * half * r
termination_by k
decreasing_by omega

/-- A whole power of a row; a negative one is a power of the inverse. -/
def pow (r : Row s) : Int → Row s
  | .ofNat k => r.powNat k
  | .negSucc k => r⁻¹.powNat (k + 1)

/-! ## Cycles -/

/-- The places met from `p` on, each being the bell in the one before, until `start` is met again
or `steps` places are listed. -/
def walk (r : Row s) (start : Fin s.bells) : (steps : Nat) → (p : Fin s.bells) → List (Fin s.bells)
  | 0, _ => []
  | steps + 1, p => p :: if r.bellAt p = start then [] else r.walk start steps (r.bellAt p)

/-- The cycle of a place: the places met from it until it is met again. -/
def cycleOf (r : Row s) (p : Fin s.bells) : List (Fin s.bells) := r.walk p s.bells p

/-- The cycles, each from its lowest place, in ascending order of these. -/
def cycles (r : Row s) : List (List (Fin s.bells)) :=
  ((List.finRange s.bells).map r.cycleOf).filter fun c => c.head?.any fun p => c.all (p ≤ ·)

/-- The lengths of the cycles. -/
def cycleLengths (r : Row s) : List Nat := r.cycles.map List.length

/-- The sign of a row: a cycle of `k` places is `k - 1` swaps. -/
def parity (r : Row s) : Parity := .ofSwaps (s.bells - r.cycleLengths.length)

/-- The least number of times a row is to be repeated to reach rounds. -/
def order (r : Row s) : Nat := r.cycleLengths.foldl Nat.lcm 1

end Row

end Campanology
