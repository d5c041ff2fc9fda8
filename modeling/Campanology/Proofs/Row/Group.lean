import Mathlib.Algebra.Group.Basic
import Mathlib.Logic.Function.Iterate
import Campanology.Row.Algebra

/-!
# Rows as a group

The rows of a stage are a group under their product, so that everything known of groups can be said
of rows. The powers of the library are the powers of the group (`pow_eq_zpow`): repeated squaring is
only a way to compute them. A power of a row rearranges the places by as many steps of the row
(`bellAt_pow`).
-/

namespace Campanology.Row

variable {s : Stage}

/-! ## The laws -/

instance : Group (Row s) where
  mul_assoc a b c := by ext p; simp
  one_mul a := by ext p; simp
  mul_one a := by ext p; simp
  inv_mul_cancel a := by ext p; simp

theorem rounds_eq_one : rounds s = 1 := rfl

theorem isRounds_iff {r : Row s} : r.isRounds = true ↔ r = 1 := by
  simp [isRounds, rounds_eq_one]

theorem bellAt_injective (r : Row s) : Function.Injective r.bellAt := r.injective

/-! ## Powers -/

theorem powNat_eq_pow (r : Row s) (k : ℕ) : r.powNat k = r ^ k := by
  induction k using Nat.strongRecOn with
  | ind k ih =>
    rw [powNat]
    by_cases hk : k = 0
    · simp [hk]
    rw [if_neg hk]
    have half := ih (k / 2) (by omega)
    by_cases even : k % 2 = 0
    · rw [if_pos even, half, ← pow_add]
      congr 1
      omega
    · rw [if_neg even, half, ← pow_add, ← pow_succ]
      congr 1
      omega

theorem pow_eq_zpow (r : Row s) (k : ℤ) : r.pow k = r ^ k := by
  cases k with
  | ofNat k => exact (powNat_eq_pow r k).trans (zpow_natCast r k).symm
  | negSucc k =>
    rw [zpow_negSucc, ← inv_pow]
    exact powNat_eq_pow r⁻¹ (k + 1)

theorem pow_natCast (r : Row s) (k : ℕ) : r.pow (k : ℤ) = r ^ k :=
  (r.pow_eq_zpow k).trans (zpow_natCast r k)

theorem bellAt_pow (r : Row s) (k : ℕ) (p : Fin s.bells) :
    (r ^ k).bellAt p = r.bellAt^[k] p := by
  induction k with
  | zero => simp
  | succ k ih => rw [pow_succ', bellAt_mul, ih, Function.iterate_succ_apply']

end Campanology.Row
