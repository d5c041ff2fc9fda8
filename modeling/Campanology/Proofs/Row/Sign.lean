import Mathlib.GroupTheory.Perm.Cycle.Type
import Mathlib.GroupTheory.Perm.Fin
import Campanology.Proofs.Row.Cycles

/-!
# The sign of a row

A row is a permutation of the places (`perm`). The cycles that are listed of it are the cycles into
which the permutation falls, and a cycle of one place for each place that rings its own bell
(`coe_cycleLengths`). As many swaps as there are places less cycles make a row, and so the parity
told by the number of cycles is the sign of the permutation (`parity_eq_even_iff_sign`). It is also
that of the number of inversions, pairs of places in which the heavier bell rings first
(`parity_eq_even_iff_inversions`).

The sign of a product is the product of the signs, whence the parity of products and inverses.
-/

namespace Campanology

namespace Parity

/-- The sign after one more swap. -/
def flip : Parity → Parity
  | even => odd
  | odd => even

theorem ofSwaps_eq_even_iff {n : ℕ} : ofSwaps n = even ↔ Even n := by
  rw [ofSwaps, Nat.even_iff]
  split <;> simp_all

theorem eq_iff_even {π π' : Parity} : π = π' ↔ (π = even ↔ π' = even) := by
  cases π <;> cases π' <;> simp

@[simp] theorem flip_eq_even_iff {π : Parity} : π.flip = even ↔ ¬ π = even := by
  cases π <;> simp [flip]

end Parity

namespace Row

open Equiv Function

variable {s : Stage}

/-- A row as a permutation of the places. -/
def perm : Row s →* Perm (Fin s.bells) where
  toFun r := ⟨r.bellAt, r.placeOf, r.placeOf_bellAt, r.bellAt_placeOf⟩
  map_one' := Equiv.ext bellAt_one
  map_mul' a b := Equiv.ext (bellAt_mul a b)

@[simp] theorem perm_apply (r : Row s) (p : Fin s.bells) : r.perm p = r.bellAt p := rfl

/-! ## Cycles -/

section Cycles

variable (r : Row s)

theorem mem_cycleOf_iff_sameCycle {p q : Fin s.bells} : q ∈ r.cycleOf p ↔ r.perm.SameCycle p q := by
  rw [mem_cycleOf]
  constructor
  · rintro ⟨i, rfl⟩
    exact ⟨i, by rw [zpow_natCast, Perm.coe_pow]; rfl⟩
  · intro same
    obtain ⟨i, hi⟩ := same.exists_nat_pow_eq
    exact ⟨i, by rw [← hi, Perm.coe_pow]; rfl⟩

theorem nodup_cycleOf (p : Fin s.bells) : (r.cycleOf p).Nodup := by
  rw [cycleOf_eq]
  refine List.nodup_range.map_on fun i hi k hk same => ?_
  exact (iterate_eq_iterate_iff_of_lt_minimalPeriod (List.mem_range.1 hi) (List.mem_range.1 hk)).1
    same

/-- The places that begin a cycle of the list, each the lowest of its own. -/
def lowest : Finset (Fin s.bells) := {p | ∀ q ∈ r.cycleOf p, p ≤ q}

theorem mem_lowest {p : Fin s.bells} : p ∈ r.lowest ↔ ∀ q ∈ r.cycleOf p, p ≤ q := by
  simp [lowest]

theorem exists_mem_lowest (p : Fin s.bells) : ∃ low ∈ r.lowest, p ∈ r.cycleOf low := by
  obtain ⟨c, hc, hp⟩ := r.exists_mem_cycles p
  obtain ⟨low, rfl, least⟩ := r.mem_cycles.1 hc
  exact ⟨low, r.mem_lowest.2 least, hp⟩

theorem cycleLengths_eq : r.cycleLengths =
    ((List.finRange s.bells).filter (· ∈ r.lowest)).map (minimalPeriod r.bellAt) := by
  have begins : ∀ p ∈ List.finRange s.bells,
      ((r.cycleOf p).head?.any fun q => (r.cycleOf p).all (q ≤ ·)) = decide (p ∈ r.lowest) := by
    intro p _
    rw [head?_cycleOf, Option.any_some, Bool.eq_iff_iff, List.all_eq_true, decide_eq_true_eq,
      mem_lowest]
    simp only [decide_eq_true_eq]
  rw [cycleLengths, cycles, List.filter_map, List.map_map]
  simp only [Function.comp_def, length_cycleOf]
  exact congrArg _ (List.filter_congr begins)

/-- The places of a cycle are those that the permutation moves along it. -/
theorem support_cycleOf {p : Fin s.bells} (moves : p ∈ r.perm.support) :
    (r.perm.cycleOf p).support = (r.cycleOf p).toFinset := by
  ext q
  rw [Perm.mem_support_cycleOf_iff, and_iff_left moves, List.mem_toFinset,
    mem_cycleOf_iff_sameCycle]

theorem card_support_cycleOf {p : Fin s.bells} (moves : p ∈ r.perm.support) :
    (r.perm.cycleOf p).support.card = minimalPeriod r.bellAt p := by
  rw [r.support_cycleOf moves, List.toFinset_card_of_nodup (r.nodup_cycleOf p), length_cycleOf]

/-- Two places that begin cycles of the list begin different ones. -/
theorem eq_of_mem_lowest {p q : Fin s.bells} (hp : p ∈ r.lowest) (hq : q ∈ r.lowest)
    (same : q ∈ r.cycleOf p) : p = q :=
  le_antisymm (r.mem_lowest.1 hp q same) (r.mem_lowest.1 hq p (r.mem_cycleOf_symm same))

/-- Of the cycles of the permutation, each is that of the lowest place it moves. -/
theorem map_period_lowest_support :
    (r.lowest.val.filter (· ∈ r.perm.support)).map (minimalPeriod r.bellAt) =
      r.perm.cycleType := by
  rw [Perm.cycleType_def]
  refine Multiset.map_eq_map_of_bij_of_nodup _ _ (r.lowest.nodup.filter _) (Finset.nodup _)
    (fun p _ => r.perm.cycleOf p) (fun p hp => ?_) (fun p hp q hq same => ?_) (fun c hc => ?_)
    fun p hp => ?_
  · exact Perm.cycleOf_mem_cycleFactorsFinset_iff.2 (Multiset.mem_filter.1 hp).2
  · rw [Multiset.mem_filter] at hp hq
    refine r.eq_of_mem_lowest hp.1 hq.1 ?_
    rw [← List.mem_toFinset, ← r.support_cycleOf hp.2, same]
    exact Perm.mem_support_cycleOf_iff.2 ⟨Perm.SameCycle.refl _ _, hq.2⟩
  · have cycle := (Perm.mem_cycleFactorsFinset_iff.1 (Finset.mem_def.2 hc)).1
    obtain ⟨p, hp⟩ := cycle.nonempty_support
    obtain ⟨low, lowest, along⟩ := r.exists_mem_lowest p
    have same := r.mem_cycleOf_iff_sameCycle.1 along
    have moves : p ∈ r.perm.support := Perm.mem_cycleFactorsFinset_support_le hc hp
    refine ⟨low, Multiset.mem_filter.2 ⟨lowest, ?_⟩, ?_⟩
    · exact same.mem_support_iff.2 moves
    · rw [Perm.cycle_is_cycleOf hp hc, same.cycleOf_eq]
  · exact (r.card_support_cycleOf (Multiset.mem_filter.1 hp).2).symm

/-- A place that rings its own bell is a cycle by itself. -/
theorem map_period_lowest_fixed :
    (r.lowest.val.filter (· ∉ r.perm.support)).map (minimalPeriod r.bellAt) =
      Multiset.replicate (s.bells - r.perm.support.card) 1 := by
  have one : ∀ p, p ∉ r.perm.support → minimalPeriod r.bellAt p = 1 := fun p stays =>
    minimalPeriod_eq_one_iff_isFixedPt.2 (Perm.notMem_support.1 stays)
  have all : r.lowest.filter (· ∉ r.perm.support) = r.perm.supportᶜ := by
    ext p
    rw [Finset.mem_filter, Finset.mem_compl, and_iff_right_of_imp]
    intro stays
    rw [mem_lowest, cycleOf_eq, one p stays]
    simp
  rw [← Finset.filter_val, all, Multiset.map_congr rfl fun p hp =>
    one p (Finset.mem_compl.1 hp), Multiset.map_const', Finset.card_val, Finset.card_compl,
    Fintype.card_fin]

/-- The cycle lengths are those of the permutation, and one for each place that rings its own
bell. -/
theorem coe_cycleLengths : (r.cycleLengths : Multiset ℕ) =
    r.perm.cycleType + Multiset.replicate (s.bells - r.perm.support.card) 1 := by
  have listed : ((List.finRange s.bells).filter (· ∈ r.lowest) : Multiset _) = r.lowest.val := by
    refine ((Multiset.Nodup.ext ?_ r.lowest.nodup).2 fun p => ?_)
    · exact (List.nodup_finRange _).filter _
    · simp
  rw [cycleLengths_eq, ← Multiset.map_coe, listed, ← r.map_period_lowest_support,
    ← r.map_period_lowest_fixed, ← Multiset.map_add, Multiset.filter_add_not]

end Cycles

/-! ## The sign -/

theorem parity_eq_even_iff_sign (r : Row s) : r.parity = .even ↔ Perm.sign r.perm = 1 := by
  have length : r.cycleLengths.length =
      Multiset.card r.perm.cycleType + (s.bells - r.perm.support.card) := by
    rw [← Multiset.coe_card, coe_cycleLengths, Multiset.card_add, Multiset.card_replicate]
  have moved : r.perm.support.card ≤ s.bells := by
    simpa using r.perm.support.card_le_univ
  have two : Multiset.card r.perm.cycleType * 2 ≤ r.perm.support.card := by
    rw [← r.perm.sum_cycleType]
    exact Multiset.card_nsmul_le_sum fun k hk => Perm.two_le_of_mem_cycleType hk
  have swaps : s.bells - r.cycleLengths.length =
      r.perm.support.card - Multiset.card r.perm.cycleType := by
    omega
  rw [parity, Parity.ofSwaps_eq_even_iff, swaps, Nat.even_sub (by omega),
    Perm.sign_of_cycleType, r.perm.sum_cycleType, neg_one_pow_eq_one_iff_even (by decide),
    Nat.even_add]

/-- The number of pairs of places in the lower of which the heavier bell rings. -/
def inversions (r : Row s) : ℕ :=
  Finset.card {x : Fin s.bells × Fin s.bells | x.1 < x.2 ∧ r.bellAt x.2 < r.bellAt x.1}

/-- Each inversion turns the sign. -/
theorem sign_eq_prod_inversions (r : Row s) : Perm.sign r.perm =
    ∏ x : Fin s.bells × Fin s.bells,
      if x.1 < x.2 ∧ r.bellAt x.2 < r.bellAt x.1 then -1 else 1 := by
  have pair : ∀ p q : Fin s.bells,
      (if p < q then if r.perm p < r.perm q then 1 else -1 else 1 : ℤˣ) =
        if p < q ∧ r.bellAt q < r.bellAt p then -1 else 1 := by
    intro p q
    by_cases apart : p < q
    · have other : r.bellAt p ≠ r.bellAt q := fun same => apart.ne (bellAt_inj.1 same)
      rw [if_pos apart, perm_apply, perm_apply, ← ite_not]
      simp only [apart, true_and, not_lt, other.symm.le_iff_lt]
    · rw [if_neg apart, if_neg fun both => apart both.1]
  calc Perm.sign r.perm
      = ∏ p, ∏ q ∈ Finset.Ioi p, if r.perm p < r.perm q then 1 else -1 :=
        r.perm.sign_eq_prod_prod_Ioi
    _ = ∏ p, ∏ q, if p < q ∧ r.bellAt q < r.bellAt p then -1 else 1 := by
        simp only [← Finset.filter_lt_eq_Ioi, Finset.prod_filter, pair]
    _ = ∏ x : Fin s.bells × Fin s.bells,
          if x.1 < x.2 ∧ r.bellAt x.2 < r.bellAt x.1 then -1 else 1 :=
        (Fintype.prod_prod_type' _).symm

theorem parity_eq_even_iff_inversions (r : Row s) : r.parity = .even ↔ Even r.inversions := by
  rw [parity_eq_even_iff_sign, sign_eq_prod_inversions, Finset.prod_ite, Finset.prod_const,
    Finset.prod_const_one, mul_one, neg_one_pow_eq_one_iff_even (by decide), inversions]

/-! ## Products and inverses -/

theorem parity_eq_iff_sign {a b : Row s} :
    a.parity = b.parity ↔ Perm.sign a.perm = Perm.sign b.perm := by
  rw [Parity.eq_iff_even, parity_eq_even_iff_sign, parity_eq_even_iff_sign]
  rcases Int.units_eq_one_or (Perm.sign a.perm) with ha | ha <;>
    rcases Int.units_eq_one_or (Perm.sign b.perm) with hb | hb <;> simp [ha, hb]

theorem parity_mul_eq_even_iff (a b : Row s) : (a * b).parity = .even ↔ a.parity = b.parity := by
  rw [parity_eq_even_iff_sign, parity_eq_iff_sign, map_mul, map_mul, mul_eq_one_iff_eq_inv,
    Int.units_inv_eq_self]

theorem parity_inv (a : Row s) : a⁻¹.parity = a.parity := by
  rw [parity_eq_iff_sign, map_inv, map_inv, Int.units_inv_eq_self]

end Row

end Campanology
