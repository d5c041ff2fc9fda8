import Mathlib.Data.Set.Card
import Campanology.Proofs.Row.Orders

/-!
# Orbits, found by marking places

The lengths of the cycles of a row can be found by marking places. The places are taken as starts in
ascending order, and from each that is not marked the row is followed, marking and counting the
places on the way, until it comes to a mark (`sweep`, `follow`). Each step leaves one place fewer
unmarked, so that this comes to an end.

To stop at any mark, and not at the start, is right because a row is a permutation: what is marked
are whole cycles (`Marks`), and a cycle is not entered from outside, so that the first mark that is
met is that of the start (`Marks.follow_iterate`). So a start is unmarked exactly if it is the
lowest place of its cycle (`Marks.mem_iff`), and the lengths are those of the cycles in the order of
these places (`Marks.sweep_eq`).

What the lengths tell of the orbits of the places, and which rows have the same of them, is put
together in `cycleLengths_tell_orbits`.
-/

namespace Campanology.Row

open Equiv Function

variable {s : Stage}

/-! ## Following marks -/

/-- Goes from place to place, each being the bell in the one before, until a place is marked: the
marks with those that were made on the way, and the number of these. -/
def follow (r : Row s) (marked : Finset (Fin s.bells)) (p : Fin s.bells) :
    Finset (Fin s.bells) × ℕ :=
  if p ∈ marked then (marked, 0)
  else
    let rest := r.follow (insert p marked) (r.bellAt p)
    (rest.1, rest.2 + 1)
termination_by markedᶜ.card
decreasing_by
  rename_i unmarked
  exact Finset.card_lt_card (Finset.compl_ssubset_compl.2 (Finset.ssubset_insert unmarked))

/-- Follows the row from each of the starts that is not marked when its turn comes, and lists how
many places were marked each time. -/
def sweep (r : Row s) (marked : Finset (Fin s.bells)) : List (Fin s.bells) → List ℕ
  | [] => []
  | p :: later =>
    if p ∈ marked then r.sweep marked later
    else
      let cycle := r.follow marked p
      cycle.2 :: r.sweep cycle.1 later

/-- The marks are those of the whole cycles of all starts that are done. -/
def Marks (r : Row s) (marked : Finset (Fin s.bells)) (done : List (Fin s.bells)) : Prop :=
  ∀ q, q ∈ marked ↔ ∃ p ∈ done, q ∈ r.cycleOf p

section Way

variable (r : Row s) (p : Fin s.bells)

/-- The places that are met in so many steps from a place. -/
def way (i : ℕ) : Finset (Fin s.bells) := (Finset.range i).image (r.bellAt^[·] p)

theorem way_succ (i : ℕ) : r.way p (i + 1) = insert (r.bellAt^[i] p) (r.way p i) := by
  rw [way, Finset.range_add_one, Finset.image_insert, way]

theorem way_period : r.way p (minimalPeriod r.bellAt p) = (r.cycleOf p).toFinset := by
  rw [cycleOf_eq]
  rfl

/-- Until the cycle is over, each step leads to a new place. -/
theorem iterate_notMem_way {i : ℕ} (hi : i < minimalPeriod r.bellAt p) :
    r.bellAt^[i] p ∉ r.way p i := by
  rw [way, Finset.mem_image]
  rintro ⟨k, hk, same⟩
  have lt := Finset.mem_range.1 hk
  exact lt.ne ((iterate_eq_iterate_iff_of_lt_minimalPeriod (lt.trans hi) hi).1 same)

end Way

section Marks

variable {r : Row s} {marked : Finset (Fin s.bells)} {done : List (Fin s.bells)}
  {p q : Fin s.bells}

theorem marks_nil : r.Marks ∅ [] := fun q => by simp

/-- Along a cycle all places are marked, or none. -/
theorem Marks.mem_iff_of_mem_cycleOf (h : r.Marks marked done) (along : q ∈ r.cycleOf p) :
    q ∈ marked ↔ p ∈ marked := by
  rw [h q, h p]
  constructor
  · rintro ⟨start, begun, mem⟩
    exact ⟨start, begun, r.mem_cycleOf_trans mem (r.mem_cycleOf_symm along)⟩
  · rintro ⟨start, begun, mem⟩
    exact ⟨start, begun, r.mem_cycleOf_trans mem along⟩

/-- From an unmarked place the row is followed to the end of the cycle, however far it has come. -/
theorem Marks.follow_iterate (h : r.Marks marked done) (new : p ∉ marked) {i : ℕ}
    (hi : i ≤ minimalPeriod r.bellAt p) :
    r.follow (marked ∪ r.way p i) (r.bellAt^[i] p) =
      (marked ∪ (r.cycleOf p).toFinset, minimalPeriod r.bellAt p - i) := by
  -- by induction on the steps that are left
  induction left : minimalPeriod r.bellAt p - i generalizing i with
  | zero =>
    obtain rfl : i = minimalPeriod r.bellAt p := by omega
    have back : r.bellAt^[minimalPeriod r.bellAt p] p = p := iterate_minimalPeriod
    have start : p ∈ r.way p (minimalPeriod r.bellAt p) :=
      Finset.mem_image.2 ⟨0, Finset.mem_range.2 (r.period_pos p), rfl⟩
    rw [back, follow, if_pos (Finset.mem_union_right _ start), way_period]
  | succ n ih =>
    have unmarked : r.bellAt^[i] p ∉ marked :=
      mt (h.mem_iff_of_mem_cycleOf (r.mem_cycleOf.2 ⟨i, rfl⟩)).1 new
    have further : r.bellAt^[i] p ∉ r.way p i := r.iterate_notMem_way p (by omega)
    rw [follow, if_neg (mt Finset.mem_union.1 (not_or.2 ⟨unmarked, further⟩)),
      ← Finset.union_insert, ← way_succ, ← iterate_succ_apply' r.bellAt, ih (by omega) (by omega)]

/-- From an unmarked place the whole of its cycle is marked, and each place of it counted. -/
theorem Marks.follow_eq (h : r.Marks marked done) (new : p ∉ marked) :
    r.follow marked p = (marked ∪ (r.cycleOf p).toFinset, minimalPeriod r.bellAt p) := by
  simpa [way] using h.follow_iterate new (Nat.zero_le _)

theorem Marks.union (h : r.Marks marked done) (p : Fin s.bells) :
    r.Marks (marked ∪ (r.cycleOf p).toFinset) (done ++ [p]) := by
  intro q
  rw [Finset.mem_union, h q, List.mem_toFinset]
  simp [or_and_right, exists_or]

/-- From a start that is marked, nothing new is to be marked. -/
theorem Marks.again (h : r.Marks marked done) (old : p ∈ marked) :
    r.Marks marked (done ++ [p]) := by
  have inside : (r.cycleOf p).toFinset ⊆ marked := fun q hq =>
    (h.mem_iff_of_mem_cycleOf (List.mem_toFinset.1 hq)).2 old
  have same := h.union p
  rwa [Finset.union_eq_left.2 inside] at same

/-- A place whose turn it is has a mark unless it is the lowest of its cycle. -/
theorem Marks.mem_iff (h : r.Marks marked done) (lower : ∀ q, q ∈ done ↔ q < p) :
    p ∈ marked ↔ p ∉ r.lowest := by
  rw [h p, mem_lowest]
  push Not
  refine exists_congr fun q => ?_
  rw [lower, and_comm]
  exact and_congr_left fun _ => ⟨r.mem_cycleOf_symm, r.mem_cycleOf_symm⟩

/-- In ascending order, what stands before a place is what is lower. -/
theorem mem_iff_lt_of_ascending {later : List (Fin s.bells)}
    (ascending : (done ++ p :: later).Pairwise (· < ·)) (listed : q ∈ done ++ p :: later) :
    q ∈ done ↔ q < p := by
  obtain ⟨-, rest, before⟩ := List.pairwise_append.1 ascending
  have after := (List.pairwise_cons.1 rest).1
  refine ⟨fun hq => before q hq p (List.mem_cons_self ..), fun lt => ?_⟩
  rcases List.mem_append.1 listed with hq | hq
  · exact hq
  · rcases List.mem_cons.1 hq with rfl | hq
    · exact absurd lt (lt_irrefl q)
    · exact absurd (after q hq) lt.asymm

/-- The starts that are left come to the lengths of the cycles whose lowest places they are. -/
theorem Marks.sweep_eq (h : r.Marks marked done) {later : List (Fin s.bells)}
    (ascending : (done ++ later).Pairwise (· < ·)) (all : ∀ q, q ∈ done ++ later) :
    r.sweep marked later =
      (later.filter (· ∈ r.lowest)).map (minimalPeriod r.bellAt) := by
  -- by induction on the starts that are left: each goes over to those that are done
  induction later generalizing marked done with
  | nil => rfl
  | cons p later ih =>
    have shifted : done ++ p :: later = (done ++ [p]) ++ later := by simp
    have lower : ∀ q, q ∈ done ↔ q < p := fun q => mem_iff_lt_of_ascending ascending (all q)
    rw [shifted] at ascending all
    rw [sweep]
    by_cases old : p ∈ marked
    · rw [if_pos old, ih (h.again old) ascending all,
        List.filter_cons_of_neg (by simpa using (h.mem_iff lower).1 old)]
    · have lowest : p ∈ r.lowest := not_not.1 (mt (h.mem_iff lower).2 old)
      rw [if_neg old, h.follow_eq old, List.filter_cons_of_pos (by simpa using lowest),
        List.map_cons]
      exact congrArg (minimalPeriod r.bellAt p :: ·) (ih (h.union p) ascending all)

end Marks

variable (r : Row s)

/-- The lengths that are found by marking are those of the cycles. -/
theorem sweep_finRange : r.sweep ∅ (List.finRange s.bells) = r.cycleLengths := by
  rw [cycleLengths_eq]
  exact marks_nil.sweep_eq (List.pairwise_lt_finRange _) List.mem_finRange

/-! ## Orbits -/

/-- The places that are met from a place on. -/
def orbit (p : Fin s.bells) : Set (Fin s.bells) := {q | ∃ i, r.bellAt^[i] p = q}

theorem mem_orbit_iff {p q : Fin s.bells} : q ∈ r.orbit p ↔ q ∈ r.cycleOf p :=
  r.mem_cycleOf.symm

theorem ncard_orbit (p : Fin s.bells) : (r.orbit p).ncard = minimalPeriod r.bellAt p := by
  have same : r.orbit p = ((r.cycleOf p).toFinset : Set (Fin s.bells)) := by
    ext q
    rw [mem_orbit_iff, Finset.mem_coe, List.mem_toFinset]
  rw [same, Set.ncard_coe_finset, List.toFinset_card_of_nodup (r.nodup_cycleOf p), length_cycleOf]

theorem isLeast_orbit_iff {p : Fin s.bells} : IsLeast (r.orbit p) p ↔ p ∈ r.lowest := by
  rw [mem_lowest, IsLeast, and_iff_right (show p ∈ r.orbit p from ⟨0, rfl⟩)]
  simp only [mem_lowerBounds, mem_orbit_iff]

/-- The size of an orbit is the least number of steps after which its place is met again. -/
theorem isLeast_ncard_orbit (p : Fin s.bells) :
    IsLeast {l | 1 ≤ l ∧ r.bellAt^[l] p = p} (r.orbit p).ncard := by
  rw [ncard_orbit]
  refine ⟨⟨r.period_pos p, iterate_minimalPeriod⟩, fun l hl => ?_⟩
  exact IsPeriodicPt.minimalPeriod_le hl.1 hl.2

/-- Each place is in the orbit of one of the lowest places. -/
theorem existsUnique_lowest (p : Fin s.bells) : ∃! low, low ∈ r.lowest ∧ p ∈ r.orbit low := by
  obtain ⟨low, lowest, along⟩ := r.exists_mem_lowest p
  refine ⟨low, ⟨lowest, r.mem_orbit_iff.2 along⟩, ?_⟩
  rintro other ⟨lowest', along'⟩
  rw [mem_orbit_iff] at along'
  exact r.eq_of_mem_lowest lowest' lowest (r.mem_cycleOf_trans along' (r.mem_cycleOf_symm along))

/-! ## Rows of one cycle type -/

theorem perm_cycleLengths_of_cycleType {a b : Row s} (same : a.perm.cycleType = b.perm.cycleType) :
    a.cycleLengths.Perm b.cycleLengths := by
  rw [← Multiset.coe_eq_coe, coe_cycleLengths, coe_cycleLengths, ← a.perm.sum_cycleType,
    ← b.perm.sum_cycleType, same]

theorem perm_cycleLengths_inv : r⁻¹.cycleLengths.Perm r.cycleLengths :=
  perm_cycleLengths_of_cycleType (by rw [map_inv, Perm.cycleType_inv])

theorem perm_cycleLengths_conj (g : Row s) : (g * r * g⁻¹).cycleLengths.Perm r.cycleLengths :=
  perm_cycleLengths_of_cycleType (by rw [map_mul, map_mul, map_inv, Perm.cycleType_conj])

/-- **The cycle lengths are the sizes of the orbits**, of each orbit once, in ascending order of
their lowest places. They are found by marking places. The size of an orbit is the least number of
steps, one or more, after which any of its places is met again. So the lengths are positive, and
together they are as many as there are bells. The inverse of a row and its conjugates have the
lengths of the row in some order. -/
theorem cycleLengths_tell_orbits (r : Row s) :
    r.sweep ∅ (List.finRange s.bells) = r.cycleLengths ∧
    (∃ lows : List (Fin s.bells), lows.Pairwise (· < ·) ∧
      (∀ p, p ∈ lows ↔ IsLeast (r.orbit p) p) ∧
      (∀ p, ∃! low, low ∈ lows ∧ p ∈ r.orbit low) ∧
      r.cycleLengths = lows.map fun low => (r.orbit low).ncard) ∧
    (∀ p, IsLeast {l | 1 ≤ l ∧ r.bellAt^[l] p = p} (r.orbit p).ncard) ∧
    ((∀ l ∈ r.cycleLengths, 1 ≤ l) ∧ r.cycleLengths.sum = s.bells) ∧
    r⁻¹.cycleLengths.Perm r.cycleLengths ∧
    ∀ g : Row s, (g * r * g⁻¹).cycleLengths.Perm r.cycleLengths := by
  refine ⟨r.sweep_finRange,
    ⟨(List.finRange s.bells).filter (· ∈ r.lowest), ?_, fun p => ?_, fun p => ?_, ?_⟩,
    r.isLeast_ncard_orbit, ⟨fun l => r.pos_of_mem_cycleLengths, r.sum_cycleLengths⟩,
    r.perm_cycleLengths_inv, r.perm_cycleLengths_conj⟩
  · exact (List.pairwise_lt_finRange _).filter _
  · simp [isLeast_orbit_iff]
  · simpa using r.existsUnique_lowest p
  · simp only [ncard_orbit]
    exact r.cycleLengths_eq

/-- Five bells, of which two change places and three go round. Turned round by backrounds the row
has the longer cycle first. -/
theorem cycleLengths_tell_orbits_five_bells :
    let s : Stage := ⟨5, by decide, by decide⟩
    let r : Row s := ofFn ![2, 3, 0, 4, 1] (by decide)
    let g : Row s := .backrounds s
    r.sweep ∅ (List.finRange s.bells) = [2, 3] ∧ r.cycleLengths.sum = 5 ∧
      (3 ∈ r.cycleLengths ∧ 1 ≤ 3) ∧ IsLeast {l | 1 ≤ l ∧ r.bellAt^[l] 1 = 1} (r.orbit 1).ncard ∧
      r⁻¹.cycleLengths.Perm [2, 3] ∧
      (g * r * g⁻¹).cycleLengths = [3, 2] ∧ [3, 2].Perm r.cycleLengths := by
  intro s r g
  have lengths : r.cycleLengths = [2, 3] := by decide
  have turned : (g * r * g⁻¹).cycleLengths = [3, 2] := by decide
  have three : 3 ∈ r.cycleLengths := by simp [lengths]
  obtain ⟨swept, -, least, ⟨positive, sum⟩, inverse, conjugate⟩ := cycleLengths_tell_orbits r
  exact ⟨lengths ▸ swept, sum, ⟨three, positive 3 three⟩, least 1, lengths ▸ inverse, turned,
    turned ▸ conjugate g⟩

end Campanology.Row
