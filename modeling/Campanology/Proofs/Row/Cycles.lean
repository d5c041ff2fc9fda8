import Mathlib.Data.List.FinRange
import Mathlib.Dynamics.PeriodicPts.Lemmas
import Mathlib.GroupTheory.OrderOfElement
import Campanology.Proofs.Row.Group

/-!
# The cycles of a row and its order

The cycle of a place is its orbit under the row, written from that place on, and so its length is
the least number of steps after which the place is met again (`length_cycleOf`). Every place is in
one of the cycles that are listed (`exists_mem_cycles`): the list has the cycle of the lowest place
of each orbit. So the least common multiple of their lengths is the order of the row in the group of
rows (`order_eq_orderOf`).
-/

namespace Campanology.Row

open Function

variable {s : Stage} (r : Row s)

/-! ## The cycle of a place -/

theorem mem_periodicPts (p : Fin s.bells) : p ∈ periodicPts r.bellAt :=
  r.bellAt_injective.mem_periodicPts p

theorem period_pos (p : Fin s.bells) : 0 < minimalPeriod r.bellAt p :=
  minimalPeriod_pos_of_mem_periodicPts (r.mem_periodicPts p)

theorem period_le (p : Fin s.bells) : minimalPeriod r.bellAt p ≤ s.bells := by
  simpa using minimalPeriod_le_card (f := r.bellAt) (x := p)

/-- A walk that has come `i` steps goes on until the period is over. -/
theorem walk_iterate (p : Fin s.bells) {i steps : ℕ} (hi : i < minimalPeriod r.bellAt p)
    (enough : minimalPeriod r.bellAt p ≤ i + steps) :
    r.walk p steps (r.bellAt^[i] p) =
      (List.range' i (minimalPeriod r.bellAt p - i)).map (r.bellAt^[·] p) := by
  induction steps generalizing i with
  | zero => omega
  | succ steps ih =>
    have next : r.bellAt (r.bellAt^[i] p) = r.bellAt^[i + 1] p :=
      (iterate_succ_apply' r.bellAt i p).symm
    rw [walk, next]
    by_cases back : r.bellAt^[i + 1] p = p
    · have last : minimalPeriod r.bellAt p ≤ i + 1 :=
        IsPeriodicPt.minimalPeriod_le (Nat.succ_pos i) back
      rw [if_pos back, show minimalPeriod r.bellAt p - i = 1 by omega]
      rfl
    · have further : i + 1 ≠ minimalPeriod r.bellAt p := fun e =>
        back (e ▸ isPeriodicPt_minimalPeriod r.bellAt p)
      rw [if_neg back, ih (by omega) (by omega),
        show minimalPeriod r.bellAt p - i = minimalPeriod r.bellAt p - (i + 1) + 1 by omega,
        List.range'_succ, List.map_cons]

/-- The cycle of a place lists the places met from it within a period. -/
theorem cycleOf_eq (p : Fin s.bells) :
    r.cycleOf p = (List.range (minimalPeriod r.bellAt p)).map (r.bellAt^[·] p) := by
  rw [cycleOf, List.range_eq_range']
  exact r.walk_iterate p (i := 0) (r.period_pos p) (by simpa using r.period_le p)

@[simp] theorem length_cycleOf (p : Fin s.bells) :
    (r.cycleOf p).length = minimalPeriod r.bellAt p := by
  simp [cycleOf_eq]

theorem head?_cycleOf (p : Fin s.bells) : (r.cycleOf p).head? = some p := by
  obtain ⟨n, hn⟩ := Nat.exists_eq_succ_of_ne_zero (r.period_pos p).ne'
  rw [cycleOf_eq, hn, List.range_succ_eq_map]
  rfl

theorem mem_cycleOf {p q : Fin s.bells} : q ∈ r.cycleOf p ↔ ∃ i, r.bellAt^[i] p = q := by
  rw [cycleOf_eq, List.mem_map]
  constructor
  · rintro ⟨i, -, hi⟩
    exact ⟨i, hi⟩
  · rintro ⟨i, hi⟩
    refine ⟨i % minimalPeriod r.bellAt p, ?_, ?_⟩
    · exact List.mem_range.2 (Nat.mod_lt _ (r.period_pos p))
    · rw [iterate_mod_minimalPeriod_eq, hi]

/-- All places of a cycle have the same period. -/
theorem period_of_mem_cycleOf {p q : Fin s.bells} (h : q ∈ r.cycleOf p) :
    minimalPeriod r.bellAt q = minimalPeriod r.bellAt p := by
  obtain ⟨i, rfl⟩ := r.mem_cycleOf.1 h
  exact minimalPeriod_apply_iterate (r.mem_periodicPts p) i

theorem mem_cycleOf_symm {p q : Fin s.bells} (h : q ∈ r.cycleOf p) : p ∈ r.cycleOf q := by
  obtain ⟨i, rfl⟩ := r.mem_cycleOf.1 h
  refine r.mem_cycleOf.2 ⟨i * (minimalPeriod r.bellAt p - 1), ?_⟩
  rw [← iterate_add_apply,
    show i * (minimalPeriod r.bellAt p - 1) + i = i * minimalPeriod r.bellAt p by
      obtain ⟨n, hn⟩ := Nat.exists_eq_succ_of_ne_zero (r.period_pos p).ne'
      rw [hn]
      simp [Nat.mul_succ]]
  exact (isPeriodicPt_minimalPeriod r.bellAt p).const_mul i

theorem mem_cycleOf_trans {p q t : Fin s.bells} (hq : q ∈ r.cycleOf p) (ht : t ∈ r.cycleOf q) :
    t ∈ r.cycleOf p := by
  obtain ⟨i, rfl⟩ := r.mem_cycleOf.1 hq
  obtain ⟨k, rfl⟩ := r.mem_cycleOf.1 ht
  exact r.mem_cycleOf.2 ⟨k + i, iterate_add_apply r.bellAt k i p⟩

/-! ## The list of cycles -/

theorem mem_cycles {c : List (Fin s.bells)} :
    c ∈ r.cycles ↔ ∃ p, r.cycleOf p = c ∧ ∀ q ∈ c, p ≤ q := by
  simp only [cycles, List.mem_filter, List.mem_map, List.mem_finRange, true_and]
  constructor
  · rintro ⟨⟨p, rfl⟩, h⟩
    exact ⟨p, rfl, by simpa [head?_cycleOf] using h⟩
  · rintro ⟨p, rfl, h⟩
    exact ⟨⟨p, rfl⟩, by simpa [head?_cycleOf] using h⟩

/-- Every place is in a cycle of the list. -/
theorem exists_mem_cycles (p : Fin s.bells) : ∃ c ∈ r.cycles, p ∈ c := by
  obtain ⟨low, hlow, least⟩ := (r.cycleOf p).toFinset.exists_min_image id
    ⟨p, List.mem_toFinset.2 (r.mem_cycleOf.2 ⟨0, rfl⟩)⟩
  rw [List.mem_toFinset] at hlow
  refine ⟨r.cycleOf low, r.mem_cycles.2 ⟨low, rfl, ?_⟩, r.mem_cycleOf_symm hlow⟩
  intro q hq
  exact least q (List.mem_toFinset.2 (r.mem_cycleOf_trans hlow hq))

/-- The length of a cycle is the period of each of its places. -/
theorem length_of_mem_cycles {c : List (Fin s.bells)} (hc : c ∈ r.cycles) {p : Fin s.bells}
    (hp : p ∈ c) : c.length = minimalPeriod r.bellAt p := by
  obtain ⟨q, rfl, -⟩ := r.mem_cycles.1 hc
  rw [length_cycleOf, r.period_of_mem_cycleOf hp]

/-! ## The order -/

theorem foldl_lcm_dvd_iff (ns : List ℕ) (a k : ℕ) :
    ns.foldl Nat.lcm a ∣ k ↔ a ∣ k ∧ ∀ n ∈ ns, n ∣ k := by
  induction ns generalizing a with
  | nil => simp
  | cons n ns ih => simp [ih, Nat.lcm_dvd_iff, and_assoc]

theorem order_dvd_iff_period {k : ℕ} : r.order ∣ k ↔ ∀ p, minimalPeriod r.bellAt p ∣ k := by
  simp only [order, cycleLengths, foldl_lcm_dvd_iff, one_dvd, true_and, List.forall_mem_map]
  constructor
  · intro h p
    obtain ⟨c, hc, hp⟩ := r.exists_mem_cycles p
    exact r.length_of_mem_cycles hc hp ▸ h c hc
  · intro h c hc
    obtain ⟨p, rfl, -⟩ := r.mem_cycles.1 hc
    simpa using h p

/-- A power of a row is rounds exactly if every place is back after so many steps. -/
theorem pow_eq_one_iff_period {k : ℕ} : r ^ k = 1 ↔ ∀ p, minimalPeriod r.bellAt p ∣ k := by
  simp only [Row.ext_iff, bellAt_pow, bellAt_one, ← isPeriodicPt_iff_minimalPeriod_dvd]
  rfl

/-- The order is that of the row in the group of rows. -/
theorem order_eq_orderOf : r.order = orderOf r := by
  apply Nat.dvd_right_iff_eq.1
  intro k
  rw [order_dvd_iff_period, orderOf_dvd_iff_pow_eq_one, pow_eq_one_iff_period]

instance : Finite (Row s) :=
  Finite.of_injective bellAt fun _ _ h => Row.ext fun p => congrFun h p

theorem order_pos : 0 < r.order := r.order_eq_orderOf ▸ orderOf_pos r

end Campanology.Row
