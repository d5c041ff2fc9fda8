import Campanology.Proofs.Change.Places
import Campanology.Proofs.Row.Queries

/-!
# Pairing places one after another

Whether a place pairs, and with which, can be told from the run of places below it alone
(`unpaired`, `partner`). One may as well go up the places once (`pairUp`), keeping the list of the
places which are made and the places that have been swapped so far: a place that is made is passed,
one that is not is swapped with the next if that is not made either, and the top place of an odd
stage, if it is left over, is made too. Before each step the places below are where their partners
are (`swapped`) and none of them is left over, so that both ways agree (`pairUp_eq`), in the place
at which they fail as well.
-/

namespace Campanology.Change

/-- Pairs the places from `p` on, the places of `fixed` being made and `perm` what has become of all
places; or tells the first one which cannot be paired. -/
def pairFrom (n p : ℕ) (fixed perm : List ℕ) : Except ℕ (List ℕ × List ℕ) :=
  if p < n then
    if p ∈ fixed then pairFrom n (p + 1) fixed perm
    else if p + 1 < n ∧ p + 1 ∉ fixed then
      pairFrom n (p + 2) fixed ((perm.set p (p + 1)).set (p + 1) p)
    else if p + 1 = n ∧ n % 2 = 1 then pairFrom n (p + 1) (p :: fixed) perm
    else .error p
  else .ok ((List.range n).filter (· ∈ fixed), perm)
termination_by n - p

/-- Pairs `n` places of which those in `fixed` are made: the places that are made then, and the
place that each swaps with. -/
def pairUp (n : ℕ) (fixed : List ℕ) : Except ℕ (List ℕ × List ℕ) :=
  pairFrom n 0 fixed (List.range n)

section Pairing

variable {n : ℕ} {made : ℕ → Bool}

/-- A place stays if it is made, or if it is the top one and the run below it is paired off. -/
theorem partner_eq_self {p : ℕ} :
    partner n made p = p ↔ made p = true ∨ runBelow made p % 2 = 0 ∧ n ≤ p + 1 := by
  have pos : runBelow made p % 2 = 1 → p ≠ 0 := by
    rintro odd rfl
    simp [runBelow] at odd
  rw [partner]
  by_cases stays : made p = true
  · simp [stays]
  rw [if_neg stays]
  simp only [stays, false_or, Bool.false_eq_true]
  split
  · have := pos ‹_›
    omega
  · split <;> omega

/-- The places below `p` have been swapped with their partners. -/
def swapped (n : ℕ) (made : ℕ → Bool) (p : ℕ) : List ℕ :=
  (List.range n).map fun q => if q < p then partner n made q else q

theorem swapped_zero : swapped n made 0 = List.range n := by
  simp [swapped]

theorem swapped_self : swapped n made n = (List.range n).map (partner n made) :=
  List.map_congr_left fun _ hq => if_pos (List.mem_range.1 hq)

theorem swapped_succ {p : ℕ} (stays : partner n made p = p) :
    swapped n made (p + 1) = swapped n made p := by
  refine List.map_congr_left fun q _ => ?_
  rcases Nat.lt_trichotomy q p with lt | rfl | gt
  · rw [if_pos (by omega), if_pos lt]
  · rw [if_pos (by omega), if_neg (by omega), stays]
  · rw [if_neg (by omega), if_neg (by omega)]

theorem swapped_add_two {p : ℕ} (up : partner n made p = p + 1)
    (down : partner n made (p + 1) = p) :
    swapped n made (p + 2) = ((swapped n made p).set p (p + 1)).set (p + 1) p := by
  refine List.ext_getElem (by simp [swapped]) fun q hq _ => ?_
  simp only [swapped, List.getElem_set, List.getElem_map, List.getElem_range]
  by_cases second : p + 1 = q
  · subst second
    rw [if_pos (by omega), if_pos rfl, down]
  by_cases first : p = q
  · subst first
    rw [if_pos (by omega), if_neg second, if_pos rfl, up]
  · rw [if_neg second, if_neg first]
    refine if_congr ?_ rfl rfl
    omega

end Pairing

section Loop

variable {n : ℕ} {made : ℕ → Bool} {fixed : List ℕ} (told : ∀ q, made q = true ↔ q ∈ fixed)

include told

/-- Once all places are paired, those that stay are made. -/
theorem filter_mem_eq (even : runBelow made n % 2 = 0) :
    (List.range n).filter (· ∈ fixed) = (List.range n).filter fun q => partner n made q = q := by
  refine List.filter_congr fun q hq => decide_eq_decide.2 ?_
  have lt := List.mem_range.1 hq
  rw [partner_eq_self, ← told, iff_self_or]
  rintro ⟨half, top⟩
  obtain rfl : n = q + 1 := by omega
  by_contra moves
  rw [runBelow, if_neg moves] at even
  omega

/-- If the top place is left over, it is made as well. -/
theorem filter_mem_cons_eq {p : ℕ} (top : p + 1 = n) (even : runBelow made p % 2 = 0) :
    (List.range n).filter (· ∈ p :: fixed) =
      (List.range n).filter fun q => partner n made q = q := by
  refine List.filter_congr fun q hq => decide_eq_decide.2 ?_
  have lt := List.mem_range.1 hq
  rw [partner_eq_self, List.mem_cons, ← told, or_comm]
  refine or_congr_right ⟨?_, fun h => by omega⟩
  rintro rfl
  exact ⟨even, by omega⟩

/-- **Going up the places once finds their partners**, if it goes on from a place below which all
are paired. -/
theorem pairFrom_eq {p : ℕ} (le : p ≤ n) (even : runBelow made p % 2 = 0)
    (paired : ∀ q < p, unpaired n made q = false) :
    pairFrom n p fixed (swapped n made p) =
      match firstUnpaired n made with
      | none => .ok ((List.range n).filter fun q => partner n made q = q,
          (List.range n).map (partner n made))
      | some q => .error q := by
  induction k : n - p using Nat.strong_induction_on generalizing p with
  | _ k ih =>
    subst k
    rw [pairFrom]
    by_cases lt : p < n
    swap
    · obtain rfl : p = n := by omega
      have all : firstUnpaired p made = none := by
        rw [firstUnpaired, List.find?_eq_none]
        intro q hq
        simp [paired q (List.mem_range.1 hq)]
      rw [if_neg lt, all, swapped_self, filter_mem_eq told even]
    rw [if_pos lt]
    by_cases stays : p ∈ fixed
    · have here := (told p).2 stays
      have self : partner n made p = p := partner_eq_self.2 (.inl here)
      rw [if_pos stays, ← swapped_succ self]
      refine ih _ (by omega) lt (by simp [runBelow, here]) ?_ rfl
      exact Nat.forall_lt_succ_right.2 ⟨paired, by simp [unpaired, here]⟩
    rw [if_neg stays]
    have moves : made p = false := Bool.eq_false_iff.2 (mt (told p).1 stays)
    by_cases pair : p + 1 < n ∧ p + 1 ∉ fixed
    · obtain ⟨room, free⟩ := pair
      have above : made (p + 1) = false := Bool.eq_false_iff.2 (mt (told (p + 1)).1 free)
      have odd : runBelow made (p + 1) % 2 = 1 := by
        simp only [runBelow, moves, Bool.false_eq_true, if_false]
        omega
      have up : partner n made p = p + 1 := by
        simp [partner, moves, even, room]
      have down : partner n made (p + 1) = p := by
        simp [partner, above, odd]
      rw [if_pos ⟨room, free⟩, ← swapped_add_two up down]
      refine ih _ (by omega) room ?_ ?_ rfl
      · simp only [runBelow, moves, above, Bool.false_eq_true, if_false]
        omega
      · refine Nat.forall_lt_succ_right.2 ⟨Nat.forall_lt_succ_right.2 ⟨paired, ?_⟩, ?_⟩
        · simp [unpaired, above, room]
        · simp [unpaired, odd]
    rw [if_neg pair]
    by_cases top : p + 1 = n ∧ n % 2 = 1
    · obtain ⟨rfl, odd⟩ := top
      have all : firstUnpaired (p + 1) made = none := by
        simp only [firstUnpaired, List.find?_eq_none, List.mem_range, Bool.not_eq_true]
        exact Nat.forall_lt_succ_right.2 ⟨paired, by simp [unpaired, odd]⟩
      have self : partner (p + 1) made p = p := partner_eq_self.2 (.inr ⟨even, le_rfl⟩)
      rw [if_pos ⟨rfl, odd⟩, pairFrom, if_neg (lt_irrefl _), all, filter_mem_cons_eq told rfl even,
        ← swapped_succ self, swapped_self]
    · rw [if_neg top]
      have left : unpaired n made p = true := by
        by_cases room : p + 1 < n
        · have above : made (p + 1) = true := (told _).2 (by simpa [room] using pair)
          simp [unpaired, moves, even, room, above]
        · have high : p + 1 = n := by omega
          simp only [high, true_and] at top
          simp [unpaired, moves, even, room]
          omega
      have first : firstUnpaired n made = some p :=
        List.find?_range_eq_some.2 ⟨left, List.mem_range.2 lt, fun q hq => by simp [paired q hq]⟩
      rw [first]

theorem pairUp_eq : pairUp n fixed =
    match firstUnpaired n made with
    | none => .ok ((List.range n).filter fun q => partner n made q = q,
        (List.range n).map (partner n made))
    | some q => .error q := by
  have all := pairFrom_eq told (Nat.zero_le n) rfl (by simp)
  rwa [swapped_zero] at all

end Loop

/-! ## Changes -/

section Changes

variable {s : Stage} {made : ℕ → Bool}

theorem ofMade_eq_ok_iff {c : Change s} :
    ofMade s made = .ok c ↔ ∃ h : firstUnpaired s.bells made = none, ofPaired s made h = c := by
  rw [ofMade]
  split
  · rename_i h
    simp [h]
  · rename_i p h
    simp [h]

theorem ofMade_eq_error_iff {p : ℕ} :
    ofMade s made = .error p ↔ firstUnpaired s.bells made = some p := by
  rw [ofMade]
  split
  · rename_i h
    simp [h]
  · rename_i q h
    simp [h]

theorem val_bellAt_ofPaired (paired : firstUnpaired s.bells made = none) (p : Fin s.bells) :
    ((ofPaired s made paired).row.bellAt p).val = partner s.bells made p := by
  rw [ofPaired, Row.bellAt_ofFn]

theorem toList_ofPaired (paired : firstUnpaired s.bells made = none) :
    (ofPaired s made paired).row.toList = (List.range s.bells).map (partner s.bells made) := by
  refine List.ext_getElem (by simp) fun p _ _ => ?_
  rw [Row.getElem_toList, val_bellAt_ofPaired, List.getElem_map, List.getElem_range]

theorem places_ofPaired (paired : firstUnpaired s.bells made = none) :
    (ofPaired s made paired).places =
      (List.range s.bells).filter fun p => partner s.bells made p = p := by
  rw [places, ← List.map_coe_finRange_eq_range, List.filter_map]
  refine congrArg _ (List.filter_congr fun p _ => decide_eq_decide.2 ?_)
  rw [Fin.ext_iff, val_bellAt_ofPaired]

variable {fixed : List ℕ} (told : ∀ q, made q = true ↔ q ∈ fixed)

include told

/-- A change is what comes of pairing its places one after another. -/
theorem pairUp_of_ofMade {c : Change s} (h : ofMade s made = .ok c) :
    pairUp s.bells fixed = .ok (c.places, c.row.toList) := by
  obtain ⟨paired, rfl⟩ := ofMade_eq_ok_iff.1 h
  have all := pairUp_eq (n := s.bells) told
  rw [paired] at all
  rw [all, places_ofPaired, toList_ofPaired]

theorem pairUp_of_ofMade_error {p : ℕ} (h : ofMade s made = .error p) :
    pairUp s.bells fixed = .error p := by
  rw [pairUp_eq told, ofMade_eq_error_iff.1 h]

end Changes

end Campanology.Change
