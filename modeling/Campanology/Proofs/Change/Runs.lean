import Mathlib.Algebra.Ring.Parity
import Campanology.Change.Parser
import Campanology.Proofs.Change.Pairing

/-!
# Runs of places that are not made

The places that are told part the others into runs, longest stretches of places that are not told
(`Run`). Pairing from the lead up pairs off a run from its lower end, so that it fails at the last
place of a run of odd length, unless that is the top place of an odd stage
(`unpaired_iff_exists_barred`). The first such run is the one at which a refusal points
(`firstUnpaired_eq_some_iff`), and a change is made if there is none (`firstUnpaired_eq_none_iff`).

So the changes that can be told are the rows in which every bell is at most one place from home,
each told by the places at which its bell is at home (`ofPlaces_pairs_off_runs`).
-/

namespace Campanology.Change

/-! ## Runs -/

/-- The places from `a` up to, but not including, `b` are a longest run of places below `n` that are
not made. -/
structure Run (n : ℕ) (made : ℕ → Bool) (a b : ℕ) : Prop where
  lt : a < b
  le : b ≤ n
  not_made : ∀ p, a ≤ p → p < b → made p = false
  left : ∀ p, p + 1 = a → made p = true
  right : b < n → made b = true

/-- A run which is not paired off: its length is odd, and it does not end at the top of an odd
stage. -/
structure Barred (n : ℕ) (made : ℕ → Bool) (a b : ℕ) : Prop extends Run n made a b where
  odd : Odd (b - a)
  not_top : ¬ (Odd n ∧ b = n)

section Runs

variable {n : ℕ} {made : ℕ → Bool}

theorem runBelow_le (made : ℕ → Bool) (p : ℕ) : runBelow made p ≤ p := by
  induction p with
  | zero => rfl
  | succ p ih =>
    rw [runBelow]
    split <;> omega

/-- Right below a place there are as many places that are not made as the run below it has. -/
theorem not_made_of_sub_runBelow_le {p q : ℕ} (low : p - runBelow made p ≤ q) (lt : q < p) :
    made q = false := by
  induction p with
  | zero => omega
  | succ p ih =>
    rw [runBelow] at low
    by_cases stays : made p = true
    · rw [if_pos stays] at low
      omega
    · rw [if_neg stays] at low
      rcases Nat.lt_succ_iff_lt_or_eq.1 lt with lt | rfl
      · exact ih (by omega) lt
      · exact Bool.eq_false_of_not_eq_true stays

/-- The run below a place begins at the lead or above a place that is made. -/
theorem made_of_add_one_eq {p q : ℕ} (h : q + 1 = p - runBelow made p) : made q = true := by
  induction p with
  | zero => omega
  | succ p ih =>
    rw [runBelow] at h
    by_cases stays : made p = true
    · rw [if_pos stays] at h
      obtain rfl : q = p := by omega
      exact stays
    · rw [if_neg stays] at h
      exact ih (by omega)

/-- Inside a run, the places of it that lie below are counted. -/
theorem Run.runBelow_eq {a b p : ℕ} (h : Run n made a b) (low : a ≤ p) (le : p ≤ b) :
    runBelow made p = p - a := by
  induction p with
  | zero => simp [runBelow]
  | succ p ih =>
    rw [runBelow]
    rcases Nat.lt_or_ge p a with below | above
    · rw [if_pos (h.left p (by omega))]
      omega
    · rw [h.not_made p above (by omega), if_neg Bool.false_ne_true, ih above (by omega)]
      omega

/-- A place ends a run if it is not made and the next place up is made or not there. -/
theorem run_of_end {p : ℕ} (lt : p < n) (stays : made p = false)
    (next : p + 1 < n → made (p + 1) = true) : Run n made (p - runBelow made p) (p + 1) where
  lt := by have := runBelow_le made p; omega
  le := lt
  not_made q low hq := by
    rcases Nat.lt_succ_iff_lt_or_eq.1 hq with hq | rfl
    · exact not_made_of_sub_runBelow_le low hq
    · exact stays
  left q h := made_of_add_one_eq h
  right := next

/-- Pairing fails at the last places of the runs which are not paired off. -/
theorem unpaired_iff_exists_barred {p : ℕ} (lt : p < n) :
    unpaired n made p = true ↔ ∃ a, Barred n made a (p + 1) := by
  simp only [unpaired, Bool.and_eq_true, Bool.not_eq_true', decide_eq_true_eq, Nat.even_iff.symm]
  constructor
  · rintro ⟨⟨stays, even⟩, next⟩
    have le := runBelow_le made p
    have above : p + 1 < n → made (p + 1) = true := fun room => by simpa [room] using next
    refine ⟨p - runBelow made p, run_of_end lt stays above, ?_, ?_⟩
    · rw [show p + 1 - (p - runBelow made p) = runBelow made p + 1 by omega]
      exact even.add_one
    · rintro ⟨odd, top⟩
      have even' : Even n := by simpa [top] using next
      exact Nat.not_even_iff_odd.2 odd even'
  · rintro ⟨a, run, odd, not_top⟩
    have low := run.lt
    refine ⟨⟨run.not_made p (by omega) (by omega), ?_⟩, ?_⟩
    · rw [run.runBelow_eq (by omega) (by omega)]
      rw [show p + 1 - a = p - a + 1 by omega] at odd
      exact Nat.not_odd_iff_even.1 fun h => Nat.not_even_iff_odd.2 odd h.add_one
    · split
      · exact run.right ‹_›
      · have top : p + 1 = n := by omega
        simpa using Nat.not_odd_iff_even.1 fun h => not_top ⟨h, top⟩

/-- All places pair if every run is of even length, but for one that ends at the top of an odd
stage. -/
theorem firstUnpaired_eq_none_iff :
    firstUnpaired n made = none ↔
      ∀ a b, Run n made a b → Even (b - a) ∨ Odd n ∧ b = n := by
  rw [firstUnpaired, List.find?_eq_none]
  constructor
  · intro paired a b run
    by_contra neither
    rw [not_or, Nat.not_even_iff_odd] at neither
    have lt := run.lt
    have le := run.le
    obtain ⟨p, rfl⟩ : ∃ p, b = p + 1 := ⟨b - 1, by omega⟩
    exact paired p (List.mem_range.2 le)
      ((unpaired_iff_exists_barred le).2 ⟨a, run, neither.1, neither.2⟩)
  · intro paired p hp alone
    obtain ⟨a, barred⟩ := (unpaired_iff_exists_barred (List.mem_range.1 hp)).1 alone
    rcases paired a (p + 1) barred.toRun with even | top
    · exact Nat.not_even_iff_odd.2 barred.odd even
    · exact barred.not_top top

/-- The lowest place which cannot be paired is the last one of the first run that is not paired
off. -/
theorem firstUnpaired_eq_some_iff {p : ℕ} :
    firstUnpaired n made = some p ↔
      ∃ a, Barred n made a (p + 1) ∧ ∀ a' b', Barred n made a' b' → p + 1 ≤ b' := by
  rw [firstUnpaired, List.find?_range_eq_some]
  constructor
  · rintro ⟨alone, hp, first⟩
    obtain ⟨a, barred⟩ := (unpaired_iff_exists_barred (List.mem_range.1 hp)).1 alone
    refine ⟨a, barred, fun a' b' barred' => ?_⟩
    by_contra lower
    have lt := barred'.lt
    have le := barred'.le
    obtain ⟨q, rfl⟩ : ∃ q, b' = q + 1 := ⟨b' - 1, by omega⟩
    have paired := first q (by omega)
    rw [(unpaired_iff_exists_barred le).2 ⟨a', barred'⟩] at paired
    cases paired
  · rintro ⟨a, barred, first⟩
    have lt := barred.le
    refine ⟨(unpaired_iff_exists_barred lt).2 ⟨a, barred⟩, List.mem_range.2 lt, fun q hq => ?_⟩
    rw [Bool.not_eq_true']
    by_contra alone
    obtain ⟨a', barred'⟩ := (unpaired_iff_exists_barred (hq.trans lt)).1
      (Bool.eq_true_of_not_eq_false alone)
    have := first a' (q + 1) barred'
    omega

/-- A place swaps with itself if it is made, or if it is the top place and ends a run of odd
length. -/
theorem partner_eq_self_iff (paired : firstUnpaired n made = none) {p : ℕ} (lt : p < n) :
    partner n made p = p ↔
      made p = true ∨ p + 1 = n ∧ Odd n ∧ ∃ a, Run n made a n ∧ Odd (n - a) := by
  rw [partner_eq_self]
  refine or_congr_right' fun moves => ?_
  rw [Bool.not_eq_true] at moves
  constructor
  · rintro ⟨even, top⟩
    obtain rfl : n = p + 1 := by omega
    have run := run_of_end lt moves fun room => absurd room (lt_irrefl _)
    have low := runBelow_le made p
    have odd : Odd (p + 1 - (p - runBelow made p)) := by
      rw [Nat.odd_iff]
      omega
    refine ⟨rfl, ?_, _, run, odd⟩
    exact ((firstUnpaired_eq_none_iff.1 paired _ _ run).resolve_left
      (Nat.not_even_iff_odd.2 odd)).1
  · rintro ⟨rfl, -, a, run, odd⟩
    have low := run.lt
    rw [Nat.odd_iff] at odd
    rw [run.runBelow_eq (by omega) (by omega)]
    omega

end Runs

/-! ## Changes told by their places -/

variable {s : Stage}

/-- Whether a place is among the given ones. -/
def told (given : List ℤ) (p : ℕ) : Bool := (p : ℤ) ∈ given

@[simp] theorem told_map_cast (places : List ℕ) :
    told (places.map Nat.cast) = fun p => decide (p ∈ places) := by
  funext p
  simp only [told, List.mem_map, Int.natCast_inj, exists_eq_right]

theorem inside_of_ofPlaces {given : List ℤ} {c : Change s} (h : ofPlaces s given = .ok c) :
    ∀ p ∈ given, 0 ≤ p ∧ p < s.bells := by
  rw [ofPlaces] at h
  split at h
  · cases h
  · rename_i none
    intro p hp
    have inside := List.find?_eq_none.1 none p hp
    simp only [decide_eq_true_eq] at inside
    omega

section Told

variable {given : List ℤ} (inside : ∀ p ∈ given, 0 ≤ p ∧ p < s.bells)

include inside

theorem told_iff (p : ℕ) : told given p = true ↔ p ∈ given.map Int.toNat := by
  rw [told, decide_eq_true_eq, List.mem_map]
  constructor
  · exact fun h => ⟨p, h, Int.toNat_natCast p⟩
  · rintro ⟨q, h, rfl⟩
    rwa [Int.toNat_of_nonneg (inside q h).1]

theorem find?_outside : given.find? (fun p : ℤ => p < 0 ∨ s.bells ≤ p) = none := by
  rw [List.find?_eq_none]
  intro p hp
  have := inside p hp
  simp only [decide_eq_true_eq]
  omega

/-- Places of the stage make the change that pairs all others, and are refused for a place which
cannot be paired. -/
theorem ofPlaces_eq : ofPlaces s given = (ofMade s (told given)).mapError fun p =>
    ⟨.unpaired p, label given, label given, 0⟩ := by
  have reads : (fun p : ℕ => decide ((p : ℤ) ∈ given)) = told given := rfl
  simp only [ofPlaces, find?_outside inside, reads]
  cases ofMade s (told given) <;> rfl

theorem ofPlaces_eq_ok_iff {c : Change s} :
    ofPlaces s given = .ok c ↔ ofMade s (told given) = .ok c := by
  rw [ofPlaces_eq inside]
  cases ofMade s (told given) <;> simp [Except.mapError]

theorem ofPlaces_eq_error_iff {f : NotationFault} :
    ofPlaces s given = .error f ↔ ∃ p, firstUnpaired s.bells (told given) = some p ∧
      f = ⟨.unpaired p, label given, label given, 0⟩ := by
  simp only [← ofMade_eq_error_iff, ofPlaces_eq inside]
  cases ofMade s (told given) <;> simp [Except.mapError, eq_comm]

end Told

theorem mem_places_iff {c : Change s} {p : ℕ} :
    p ∈ c.places ↔ ∃ h : p < s.bells, c.row.bellAt ⟨p, h⟩ = ⟨p, h⟩ := by
  constructor
  · intro hp
    have lt := c.lt_of_mem_places hp
    exact ⟨lt, (c.mem_places (p := ⟨p, lt⟩)).1 hp⟩
  · rintro ⟨lt, stays⟩
    exact (c.mem_places (p := ⟨p, lt⟩)).2 stays

theorem inv_row (c : Change s) : c.row⁻¹ = c.row :=
  inv_eq_of_mul_eq_one_right (Row.ext fun p => by simp [c.bellAt_bellAt])

/-- The places that a change makes are those told, and the top place if a run of odd length ends
there. -/
theorem mem_places_ofMade {made : ℕ → Bool} {c : Change s} (h : ofMade s made = .ok c) {p : ℕ} :
    p ∈ c.places ↔ p < s.bells ∧ (made p = true ∨
      p + 1 = s.bells ∧ Odd s.bells ∧ ∃ a, Run s.bells made a s.bells ∧ Odd (s.bells - a)) := by
  obtain ⟨paired, rfl⟩ := ofMade_eq_ok_iff.1 h
  rw [mem_places_iff, ← exists_prop]
  refine exists_congr fun lt => ?_
  rw [← partner_eq_self_iff paired lt, Fin.ext_iff, val_bellAt_ofPaired]

/-- A change is told by all the places that it makes. -/
theorem ofPlaces_places (c : Change s) : ofPlaces s (c.places.map Nat.cast) = .ok c := by
  have inside : ∀ p ∈ c.places.map Nat.cast, 0 ≤ p ∧ p < (s.bells : ℤ) := by
    intro p hp
    obtain ⟨q, hq, rfl⟩ := List.mem_map.1 hp
    have := c.lt_of_mem_places hq
    omega
  rw [ofPlaces_eq_ok_iff inside, told_map_cast]
  exact c.ofMade_places

/-- A row in which every bell is at most one place from home is told by the places at which its bell
is at home, and by no other list of all the places made. -/
theorem existsUnique_places (c : Change s) :
    ∃! places : List ℕ, ∃ d, ofPlaces s (places.map Nat.cast) = .ok d ∧ d.places = places ∧
      d.row = c.row := by
  refine ⟨c.places, ⟨c, c.ofPlaces_places, rfl, rfl⟩, ?_⟩
  rintro places ⟨⟨row, near⟩, -, rfl, rfl⟩
  rfl

/-- **Changes are the rows in which every bell is at most one place from home.** Told places of the
stage make a change exactly if every run of places between them is of even length, but for one that
ends at the top of an odd stage. The change makes the places told, and the top place in that case;
it undoes itself, moves no bell by more than one place, and keeps the bells of its places. Otherwise
the refusal names the last place of the first run that is not paired off. Both are what comes of
going up the places once (`pairUp`). Conversely a row in which no bell is more than one place from
home is the row of one change, told by its places. -/
theorem ofPlaces_pairs_off_runs (s : Stage) :
    (∀ given : List ℤ, (∀ p ∈ given, 0 ≤ p ∧ p < s.bells) →
      ((∃ c, ofPlaces s given = .ok c) ↔
        ∀ a b, Run s.bells (told given) a b → Even (b - a) ∨ Odd s.bells ∧ b = s.bells) ∧
      (∀ c, ofPlaces s given = .ok c →
        pairUp s.bells (given.map Int.toNat) = .ok (c.places, c.row.toList) ∧
        c.places.Pairwise (· < ·) ∧
        (∀ p : ℕ, p ∈ c.places ↔ (p : ℤ) ∈ given ∨ p + 1 = s.bells ∧ Odd s.bells ∧
          ∃ a, Run s.bells (told given) a s.bells ∧ Odd (s.bells - a)) ∧
        c.row⁻¹ = c.row ∧
        (∀ p, (c.row.bellAt p).val ≤ p.val + 1 ∧ p.val ≤ (c.row.bellAt p).val + 1) ∧
        ∀ p, c.row.bellAt p = p ↔ p.val ∈ c.places) ∧
      ∀ fault, ofPlaces s given = .error fault →
        ∃ a b, Barred s.bells (told given) a b ∧
          (∀ a' b', Barred s.bells (told given) a' b' → b ≤ b') ∧
          pairUp s.bells (given.map Int.toNat) = .error (b - 1) ∧
          fault = ⟨.unpaired (b - 1), label given, label given, 0⟩) ∧
    ∀ r : Row s, (∀ p, (r.bellAt p).val ≤ p.val + 1 ∧ p.val ≤ (r.bellAt p).val + 1) →
      ∃! places : List ℕ, ∃ c, ofPlaces s (places.map Nat.cast) = .ok c ∧ c.places = places ∧
        c.row = r := by
  refine ⟨fun given inside => ⟨?_, fun c made => ?_, fun fault refused => ?_⟩, fun r near => ?_⟩
  · rw [← firstUnpaired_eq_none_iff]
    simp only [ofPlaces_eq_ok_iff inside, ofMade_eq_ok_iff]
    constructor
    · rintro ⟨c, paired, -⟩
      exact paired
    · intro paired
      exact ⟨_, paired, rfl⟩
  · rw [ofPlaces_eq_ok_iff inside] at made
    refine ⟨pairUp_of_ofMade (told_iff inside) made, c.pairwise_places, fun p => ?_, c.inv_row,
      c.near, fun p => c.mem_places.symm⟩
    rw [mem_places_ofMade made, told, decide_eq_true_eq, and_iff_right_of_imp]
    rintro (h | ⟨top, -⟩)
    · have := inside p h
      omega
    · omega
  · obtain ⟨p, unpaired, rfl⟩ := (ofPlaces_eq_error_iff inside).1 refused
    obtain ⟨a, barred, first⟩ := firstUnpaired_eq_some_iff.1 unpaired
    have loop := pairUp_of_ofMade_error (told_iff inside) (ofMade_eq_error_iff.2 unpaired)
    exact ⟨a, p + 1, barred, first, loop, rfl⟩
  · exact existsUnique_places ⟨r, near⟩

/-- Five bells. With the lowest two places told, the run of the other three ends at the top, which
is made untold; with the second place told, the lead is left over; and a row of two swaps is told by
one list of places. -/
theorem ofPlaces_pairs_off_runs_five_bells :
    let s : Stage := ⟨5, by decide, by decide⟩
    let swaps : Row s := (ofPaired s (· = 2) (by decide)).row
    (∀ p ∈ [1, 0], 0 ≤ p ∧ p < (s.bells : ℤ)) ∧ (∀ p ∈ [1], 0 ≤ p ∧ p < (s.bells : ℤ)) ∧
      (∃ c : Change s, ofPlaces s [1, 0] = .ok c ∧ c.row⁻¹ = c.row ∧ 4 ∈ c.places ∧
        3 ∉ c.places) ∧
      (ofPlaces s [1] = .error ⟨.unpaired 0, label [1], label [1], 0⟩ ∧
        ∃ a b, Barred s.bells (told [1]) a b ∧ b - 1 = 0) ∧
      (∀ p, (swaps.bellAt p).val ≤ p.val + 1 ∧ p.val ≤ (swaps.bellAt p).val + 1) ∧
      ∃! places : List ℕ, ∃ c, ofPlaces s (places.map Nat.cast) = .ok c ∧ c.places = places ∧
        c.row = swaps := by
  intro s swaps
  have two : ∀ p ∈ [1, 0], 0 ≤ p ∧ p < (s.bells : ℤ) := by decide
  have one : ∀ p ∈ [1], 0 ≤ p ∧ p < (s.bells : ℤ) := by decide
  have near : ∀ p, (swaps.bellAt p).val ≤ p.val + 1 ∧ p.val ≤ (swaps.bellAt p).val + 1 := by
    decide
  obtain ⟨pairs, row⟩ := ofPlaces_pairs_off_runs s
  have made : ofPlaces s [1, 0] = .ok (ofPaired s (told [1, 0]) (by decide)) :=
    (ofPlaces_eq_ok_iff two).2 (ofMade_eq_ok_iff.2 ⟨by decide, rfl⟩)
  have refused : ofPlaces s [1] = .error ⟨.unpaired 0, label [1], label [1], 0⟩ :=
    (ofPlaces_eq_error_iff one).2 ⟨0, by decide, rfl⟩
  obtain ⟨-, -, -, undoes, -, -⟩ := (pairs [1, 0] two).2.1 _ made
  obtain ⟨a, b, barred, -, -, e⟩ := (pairs [1] one).2.2 _ refused
  refine ⟨two, one, ⟨_, made, undoes, by decide, by decide⟩, ⟨refused, a, b, barred, ?_⟩, near,
    row swaps near⟩
  simpa using e.symm

end Campanology.Change
