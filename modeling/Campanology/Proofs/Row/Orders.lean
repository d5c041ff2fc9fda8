import Mathlib.Algebra.BigOperators.Ring.Finset
import Mathlib.Algebra.Order.BigOperators.Group.Finset
import Campanology.Proofs.Row.Sign

/-!
# How great the order of a row can be

The lengths of the cycles of a row add up to the number of bells (`Row.sum_cycleLengths`), and the
order is their least common multiple. A length that occurs more than once counts once for it, so
that the order is at most the product of different numbers whose sum is at most the number of bells
(`Row.order_le_prod`).

How great such a product can be is found by taking the numbers in descending order, each of which is
either a factor or not (`greatestProduct`). With the most bells there are it is
2 * 3 * 4 * 5 * 6 * 7 * 9, which is far below 100000 (`Row.order_lt`).
-/

namespace Campanology

/-- The greatest product of different numbers up to `top` whose sum is at most `room`. -/
def greatestProduct : (top room : ℕ) → ℕ
  | 0, _ => 1
  | top + 1, room =>
    if top + 1 ≤ room then
      max (greatestProduct top room) ((top + 1) * greatestProduct top (room - (top + 1)))
    else greatestProduct top room

theorem prod_le_greatestProduct {top room : ℕ} {ns : Finset ℕ} (le : ∀ n ∈ ns, n ≤ top)
    (fits : ∑ n ∈ ns, n ≤ room) : ∏ n ∈ ns, n ≤ greatestProduct top room := by
  induction top generalizing room ns with
  | zero => exact Finset.prod_le_one' fun n hn => (le n hn).trans (Nat.zero_le 1)
  | succ top ih =>
    have lower : ∀ ms ⊆ ns, top + 1 ∉ ms → ∀ n ∈ ms, n ≤ top := by
      intro ms sub none n hn
      have ne : n ≠ top + 1 := by
        rintro rfl
        exact none hn
      exact Nat.le_of_lt_succ (lt_of_le_of_ne (le n (sub hn)) ne)
    rw [greatestProduct]
    by_cases taken : top + 1 ∈ ns
    · rw [← Finset.add_sum_erase _ _ taken] at fits
      have rest : ∏ n ∈ ns.erase (top + 1), n ≤ greatestProduct top (room - (top + 1)) :=
        ih (lower _ (Finset.erase_subset _ _) (Finset.notMem_erase _ _)) (by omega)
      rw [if_pos (by omega), ← Finset.mul_prod_erase _ _ taken]
      exact le_max_of_le_right (Nat.mul_le_mul_left _ rest)
    · have rest := ih (lower ns (Finset.Subset.refl ns) taken) fits
      split
      · exact le_max_of_le_left rest
      · exact rest

namespace Row

variable {s : Stage} (r : Row s)

/-- The cycles have as many places as there are bells. -/
theorem sum_cycleLengths : r.cycleLengths.sum = s.bells := by
  have moved : r.perm.support.card ≤ s.bells := by
    simpa using r.perm.support.card_le_univ
  rw [← Multiset.sum_coe, coe_cycleLengths, Multiset.sum_add, r.perm.sum_cycleType,
    Multiset.sum_replicate, smul_eq_mul, mul_one, Nat.add_sub_cancel' moved]

theorem pos_of_mem_cycleLengths {n : ℕ} (h : n ∈ r.cycleLengths) : 0 < n := by
  rw [cycleLengths_eq] at h
  obtain ⟨p, -, rfl⟩ := List.mem_map.1 h
  exact r.period_pos p

/-- The different lengths of the cycles have no more places than there are bells. -/
theorem sum_toFinset_cycleLengths_le : ∑ n ∈ r.cycleLengths.toFinset, n ≤ s.bells := by
  rw [← r.sum_cycleLengths, Finset.sum_list_count]
  refine Finset.sum_le_sum fun n hn => ?_
  exact Nat.le_mul_of_pos_left n (List.count_pos_iff.2 (List.mem_toFinset.1 hn))

/-- The order is at most the product of the different lengths of the cycles. -/
theorem order_le_prod : r.order ≤ ∏ n ∈ r.cycleLengths.toFinset, n := by
  refine Nat.le_of_dvd ?_ ?_
  · exact Finset.prod_pos fun n hn => r.pos_of_mem_cycleLengths (List.mem_toFinset.1 hn)
  · rw [order, foldl_lcm_dvd_iff]
    exact ⟨one_dvd _, fun n hn => Finset.dvd_prod_of_mem _ (List.mem_toFinset.2 hn)⟩

/-- No row, of however many bells, has to be repeated 100000 times to reach rounds. -/
theorem order_lt : r.order < 100000 := by
  have fits : ∑ n ∈ r.cycleLengths.toFinset, n ≤ maxBells :=
    r.sum_toFinset_cycleLengths_le.trans s.le_max
  have le : ∀ n ∈ r.cycleLengths.toFinset, n ≤ maxBells := fun n hn =>
    (Finset.single_le_sum (fun _ _ => Nat.zero_le _) hn).trans fits
  have greatest : greatestProduct maxBells maxBells = 45360 := by decide +kernel
  calc r.order ≤ ∏ n ∈ r.cycleLengths.toFinset, n := r.order_le_prod
    _ ≤ greatestProduct maxBells maxBells := prod_le_greatestProduct le fits
    _ < 100000 := by omega

end Row

end Campanology
