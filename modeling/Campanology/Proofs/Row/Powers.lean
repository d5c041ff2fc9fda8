import Mathlib.Data.Nat.Size
import Campanology.Proofs.Row.Cycles

/-!
# Powers and the order of a row

A power is found by going through the binary digits of the exponent from the lowest up: the base is
squared for each digit, and multiplied into the result where the digit is one (`Squaring.step`). No
round changes what is to come out at the end (`Squaring.value_step`), and each takes one digit off
the exponent, so that after as many rounds as there are digits the result is the power
(`Squaring.done_iff`, `Squaring.result_done`).

The powers obey the laws of exponents, and those which are rounds are the ones whose exponent is a
multiple of the order (`powers_repeat_at_order`).
-/

namespace Campanology.Row

variable {s : Stage}

/-! ## Repeated squaring -/

/-- Repeated squaring under way: the result so far, and the base and the exponent of the power by
which it is still to be multiplied. -/
structure Squaring (s : Stage) where
  result : Row s
  base : Row s
  exponent : ℕ

namespace Squaring

/-- The beginning, for any whole power. -/
def start (r : Row s) (k : ℤ) : Squaring s where
  result := rounds s
  base := if k < 0 then r⁻¹ else r
  exponent := k.natAbs

/-- One round, for the lowest digit of the exponent. -/
def step (x : Squaring s) : Squaring s where
  result := if x.exponent % 2 = 1 then x.result * x.base else x.result
  base := x.base * x.base
  exponent := x.exponent / 2

/-- What is to come out. -/
def value (x : Squaring s) : Row s := x.result * x.base ^ x.exponent

theorem value_step (x : Squaring s) : x.step.value = x.value := by
  obtain ⟨result, base, exponent⟩ := x
  simp only [value, step]
  rw [← pow_two, ← pow_mul]
  split
  · rw [mul_assoc, ← pow_succ']
    congr 2
    omega
  · congr 2
    omega

theorem value_iterate (n : ℕ) (x : Squaring s) : (step^[n] x).value = x.value := by
  induction n generalizing x with
  | zero => rfl
  | succ n ih => rw [Function.iterate_succ_apply, ih, value_step]

theorem exponent_iterate (n : ℕ) (x : Squaring s) :
    (step^[n] x).exponent = x.exponent / 2 ^ n := by
  induction n generalizing x with
  | zero => simp
  | succ n ih => rw [Function.iterate_succ_apply, ih, step, Nat.div_div_eq_div_mul, pow_succ']

/-- The exponent is used up after as many rounds as it has digits, and not before. -/
theorem done_iff {n : ℕ} {x : Squaring s} :
    (step^[n] x).exponent = 0 ↔ x.exponent.size ≤ n := by
  rw [exponent_iterate, Nat.div_eq_zero_iff, Nat.size_le]
  simp

theorem value_start (r : Row s) (k : ℤ) : (start r k).value = r.pow k := by
  rw [pow_eq_zpow, value, start, rounds_eq_one, one_mul, ← zpow_natCast]
  dsimp only
  split
  · rw [inv_zpow']
    exact congrArg (r ^ ·) (by omega)
  · exact congrArg (r ^ ·) (by omega)

/-- The result is then the power. -/
theorem result_done (r : Row s) (k : ℤ) :
    (step^[k.natAbs.size] (start r k)).result = r.pow k := by
  have none : (step^[k.natAbs.size] (start r k)).exponent = 0 := done_iff.2 le_rfl
  have whole := value_iterate k.natAbs.size (start r k)
  rwa [value, none, pow_zero, mul_one, value_start] at whole

end Squaring

/-! ## The laws of exponents -/

/-- A whole power is a product of rows, all the same. -/
theorem pow_eq_prod (r : Row s) (k : ℤ) :
    r.pow k = (List.replicate k.natAbs (if k < 0 then r⁻¹ else r)).prod := by
  rw [List.prod_replicate, ← Squaring.value_start]
  exact one_mul _

theorem pow_eq_rounds_iff {r : Row s} {k : ℤ} : r.pow k = rounds s ↔ (r.order : ℤ) ∣ k := by
  rw [pow_eq_zpow, order_eq_orderOf, orderOf_dvd_iff_zpow_eq_one, rounds_eq_one]

theorem isLeast_order (r : Row s) : IsLeast {k : ℕ | 0 < k ∧ r.pow k = rounds s} r.order := by
  refine ⟨⟨r.order_pos, pow_eq_rounds_iff.2 dvd_rfl⟩, fun k hk => ?_⟩
  exact Nat.le_of_dvd hk.1 (Int.natCast_dvd_natCast.1 (pow_eq_rounds_iff.1 hk.2))

/-- **Powers are repeated products, and they repeat at the order.** A whole power is the product of
so many times the row, or its inverse, and repeated squaring comes to it after as many rounds as the
exponent has binary digits. Exponents are added when powers are multiplied, and multiplied when a
power is raised to another. The powers that are rounds are those whose exponent is a multiple of the
order, which is the least number of times that the row has to be repeated. -/
theorem powers_repeat_at_order (r : Row s) :
    (∀ k : ℤ, r.pow k = (List.replicate k.natAbs (if k < 0 then r⁻¹ else r)).prod ∧
      (∀ n, (Squaring.step^[n] (.start r k)).exponent = 0 ↔ k.natAbs.size ≤ n) ∧
      (Squaring.step^[k.natAbs.size] (.start r k)).result = r.pow k) ∧
    (∀ j k : ℤ, r.pow (j + k) = r.pow j * r.pow k ∧ r.pow (j * k) = (r.pow j).pow k) ∧
    (∀ k : ℤ, (r.pow k).isRounds = true ↔ (r.order : ℤ) ∣ k) ∧
    IsLeast {k : ℕ | 0 < k ∧ r.pow k = rounds s} r.order := by
  refine ⟨fun k => ⟨r.pow_eq_prod k, fun n => Squaring.done_iff, Squaring.result_done r k⟩,
    fun j k => ⟨?_, ?_⟩, fun k => ?_, r.isLeast_order⟩
  · simp only [pow_eq_zpow, zpow_add]
  · simp only [pow_eq_zpow, zpow_mul]
  · rw [isRounds_iff, ← rounds_eq_one, pow_eq_rounds_iff]

/-- A row of three bells that goes round in one cycle is its own power to the minus second, which
takes two rounds. -/
example : let r : Row ⟨3, by decide, by decide⟩ := ofFn (· + 1) (by decide)
    let squared := Squaring.step^[2] (.start r (-2))
    r.order = 3 ∧ squared.exponent = 0 ∧ squared.result = r := by decide

end Campanology.Row
