import Mathlib.Data.List.FinRange
import Campanology.Proofs.Refusals
import Campanology.Proofs.Row.Group
import Campanology.Row.Query

/-!
# Rows as one may ask for them

Two rows have a product if they are of one stage, whichever rows they are (`multiply_eq_ok_iff`),
and a row is asked for the bell in a place, or for the place of a bell, by number (`get_eq_ok_iff`,
`find_eq_ok_iff`). What is answered obeys the laws of a group, and the place of a bell is where the
inverse has it (`multiply_obeys_group_laws`).
-/

namespace Campanology.Row

variable {s : Stage}

/-! ## The list of bells -/

@[simp] theorem length_toList (r : Row s) : r.toList.length = s.bells := by
  simp [toList]

theorem getElem_toList (r : Row s) {p : ℕ} (h : p < r.toList.length) :
    r.toList[p] = r.bellAt ⟨p, by simpa using h⟩ := by
  simp [toList, bellAt]

/-! ## Asking by number -/

theorem get_natCast (r : Row s) (p : Fin s.bells) : r.get (p : ℕ) = .ok (r.bellAt p).val := by
  have inside : (p.val : ℤ) < s.bells := by exact_mod_cast p.isLt
  simp [get, indexFrom?, inside, getElem_toList]

/-- A place counted from the lead is one of the row's places. -/
theorem get_eq_ok_iff {r : Row s} {q b : ℕ} :
    r.get q = .ok b ↔ ∃ p : Fin s.bells, p.val = q ∧ (r.bellAt p).val = b := by
  by_cases inside : q < s.bells
  · rw [r.get_natCast ⟨q, inside⟩, Except.ok.injEq]
    constructor
    · exact fun h => ⟨⟨q, inside⟩, rfl, h⟩
    · rintro ⟨p, rfl, h⟩
      exact h
  · have outside : ¬ (q : ℤ) < s.bells := by exact_mod_cast inside
    have refused : r.get q ≠ .ok b := by
      simp [get, indexFrom?, outside]
    refine iff_of_false refused ?_
    rintro ⟨p, rfl, -⟩
    exact inside p.isLt

theorem find_eq_ok_iff {r : Row s} (b : Fin s.bells) {p : ℕ} :
    r.find b.val = .ok p ↔ (r.placeOf b).val = p := by
  have inside : 0 ≤ (b.val : ℤ) ∧ (b.val : ℤ) < s.bells := by omega
  rw [find, dif_pos inside]
  simp

/-! ## Products of rows of any stages -/

theorem multiply_of (a b : Row s) : multiply (.of a) (.of b) = .ok (.of (a * b)) := by
  change (Staged.require (.of b) s "multiply" >>= fun b => _) = _
  rw [Staged.require_of]
  rfl

theorem transposition_of (a b : Row s) :
    transposition (.of a) (.of b) = .ok (.of (a.leftQuotient b)) := by
  change (Staged.require (.of b) s "multiply" >>= fun b => _) = _
  rw [Staged.require_of]
  rfl

theorem eq_of_multiply {a b c : Row s} (h : multiply (.of a) (.of b) = .ok (.of c)) :
    c = a * b := by
  rw [multiply_of] at h
  cases h
  rfl

theorem eq_of_transposition {a b c : Row s} (h : transposition (.of a) (.of b) = .ok (.of c)) :
    c = a.leftQuotient b := by
  rw [transposition_of] at h
  cases h
  rfl

/-- A product is one of two rows of one stage. -/
theorem multiply_eq_ok_iff {a c : Row s} {x : Staged Row} :
    multiply (.of a) x = .ok (.of c) ↔ ∃ b : Row s, x = .of b ∧ a * b = c := by
  change (x.require s "multiply" >>= fun b => pure (Staged.of (a * b))) = _ ↔ _
  rw [bind_eq_ok_iff]
  refine exists_congr fun b => and_congr require_eq_ok_iff ⟨fun h => ?_, fun h => h ▸ rfl⟩
  cases h
  rfl

theorem mul_eq_iff_eq_leftQuotient {a b x : Row s} : a * x = b ↔ x = a.leftQuotient b :=
  eq_inv_mul_iff_mul_eq.symm

/-- **The rows of a stage obey the laws of a group**: products associate, rounds is the unit and the
inverse undoes a row from both sides, so that of all rows, of whatever stage, the transposition from
`a` to `b` is the only one by which `a` is multiplied to `b`. A bell has one place, and the inverse
has that place at the number of the bell. -/
theorem multiply_obeys_group_laws (a b c : Row s) :
    (multiply (.of a) (.of b) = .ok (.of (a * b)) ∧ a * b * c = a * (b * c)) ∧
    (rounds s * a = a ∧ a * rounds s = a) ∧
    (a * a⁻¹ = rounds s ∧ a⁻¹ * a = rounds s) ∧
    (a * b)⁻¹ = b⁻¹ * a⁻¹ ∧
    (∃ x, transposition (.of a) (.of b) = .ok x ∧
      ∀ y, multiply (.of a) y = .ok (.of b) ↔ y = x) ∧
    ∀ bell : Fin s.bells, ∃ p, a.find bell.val = .ok p ∧ a⁻¹.get bell.val = .ok p ∧
      ∀ q : ℕ, a.get q = .ok bell.val ↔ q = p := by
  refine ⟨⟨multiply_of a b, mul_assoc a b c⟩, ⟨one_mul a, mul_one a⟩,
    ⟨mul_inv_cancel a, inv_mul_cancel a⟩, mul_inv_rev a b,
    ⟨_, transposition_of a b, fun y => ?_⟩, fun bell => ⟨a.placeOf bell, ?_, ?_, fun q => ?_⟩⟩
  · simp only [multiply_eq_ok_iff, mul_eq_iff_eq_leftQuotient, exists_eq_right]
  · exact (find_eq_ok_iff bell).2 rfl
  · rw [get_natCast, bellAt_inv]
  · rw [get_eq_ok_iff]
    constructor
    · rintro ⟨p, rfl, h⟩
      rw [← Fin.ext h, placeOf_bellAt]
    · rintro rfl
      exact ⟨a.placeOf bell, rfl, congrArg Fin.val (a.bellAt_placeOf bell)⟩

end Campanology.Row
