import Mathlib.Data.List.FinRange
import Mathlib.Data.List.Sort
import Campanology.Change.Basic

/-!
# A change is told by its places

A bell that leaves its place changes places with a neighbour (`bellAt_bellAt`): were another bell to
come into the place that is left, then this one would have left its own place in the same direction,
and so on to the lead or to the top, where there is no bell to come.

So pairing the places that are not made, from the lead up, finds the swaps of the change again
(`partner_eq`), and what is found is the change itself (`ofMade_places`). Changes which make the
same places are the same (`places_injective`); the cross is the one that makes none but the top
place of an odd stage (`isCross_iff`).
-/

namespace Campanology.Change

variable {s : Stage} (c : Change s)

/-! ## Swaps -/

theorem bellAt_bellAt (p : Fin s.bells) : c.row.bellAt (c.row.bellAt p) = p := by
  induction hn : p.val using Nat.strong_induction_on generalizing p with
  | _ n ih =>
    subst hn
    have near := c.near p
    rcases lt_trichotomy (c.row.bellAt p).val p.val with down | stay | up
    · exact Row.bellAt_inj.1 (ih _ down _ rfl)
    · rw [Fin.ext stay, Fin.ext stay]
    · obtain ⟨t, ht⟩ := c.row.exists_bellAt p
      have nearby := c.near t
      rw [ht] at nearby
      have notBelow : ¬ t.val < p.val := fun below => by
        have back := ih _ below t rfl
        rw [ht] at back
        rw [back] at up
        omega
      have notHere : t ≠ p := by
        rintro rfl
        rw [ht] at up
        omega
      have here : c.row.bellAt p = t := Fin.ext (by omega)
      rw [here, ht]

theorem bellAt_eq_iff {p q : Fin s.bells} : c.row.bellAt p = q ↔ c.row.bellAt q = p := by
  constructor <;> rintro rfl <;> exact c.bellAt_bellAt _

/-! ## Pairing -/

section Pairing

variable {c} {made : Nat → Bool} (hmade : ∀ p : Fin s.bells, made p = true ↔ c.row.bellAt p = p)

include hmade

/-- Among the places that are not made, those that swap with the next below are preceded by an odd
run of others. -/
theorem runBelow_odd_iff {p : Fin s.bells} (moves : c.row.bellAt p ≠ p) :
    runBelow made p % 2 = 1 ↔ (c.row.bellAt p).val < p.val := by
  obtain ⟨n, hn⟩ := p
  induction n with
  | zero => simp [runBelow]
  | succ n ih =>
    have hq : n < s.bells := by omega
    have near := c.near ⟨n + 1, hn⟩
    have swap : (c.row.bellAt ⟨n + 1, hn⟩).val < n + 1 ↔ c.row.bellAt ⟨n, hq⟩ = ⟨n + 1, hn⟩ := by
      rw [c.bellAt_eq_iff, Fin.ext_iff]
      simp only at near ⊢
      omega
    rw [swap, runBelow]
    by_cases stays : made n = true
    · rw [if_pos stays, (hmade ⟨n, hq⟩).1 stays]
      simp
    · rw [if_neg stays]
      have moves' : c.row.bellAt ⟨n, hq⟩ ≠ ⟨n, hq⟩ := fun e => stays ((hmade ⟨n, hq⟩).2 e)
      have parity := ih hq moves'
      have near' := c.near ⟨n, hq⟩
      rw [Fin.ext_iff]
      rw [ne_eq, Fin.ext_iff] at moves'
      simp only at parity near' moves' ⊢
      omega

/-- The place that a place is paired with is the one that its bell comes from. -/
theorem partner_eq (p : Fin s.bells) : partner s.bells made p = c.row.bellAt p := by
  rw [partner]
  by_cases stays : made p = true
  · rw [if_pos stays, (hmade p).1 stays]
  have moves : c.row.bellAt p ≠ p := fun e => stays ((hmade p).2 e)
  have near := c.near p
  have away : (c.row.bellAt p).val ≠ p.val := fun e => moves (Fin.ext e)
  have room := (c.row.bellAt p).isLt
  rw [if_neg stays]
  by_cases odd : runBelow made p % 2 = 1
  · rw [if_pos odd]
    have below := (runBelow_odd_iff hmade moves).1 odd
    omega
  · rw [if_neg odd]
    have above := mt (runBelow_odd_iff hmade moves).2 odd
    rw [if_pos (by omega)]
    omega

theorem firstUnpaired_eq_none : firstUnpaired s.bells made = none := by
  rw [firstUnpaired, List.find?_eq_none]
  intro n hn
  rw [List.mem_range] at hn
  intro alone
  simp only [unpaired, Bool.and_eq_true, Bool.not_eq_true', decide_eq_true_eq] at alone
  obtain ⟨⟨stays, even⟩, alone⟩ := alone
  have moves : c.row.bellAt ⟨n, hn⟩ ≠ ⟨n, hn⟩ := fun e => by
    rw [(hmade ⟨n, hn⟩).2 e] at stays
    cases stays
  have above := mt (runBelow_odd_iff hmade moves).2 (by simp only; omega)
  have near := c.near ⟨n, hn⟩
  have room := (c.row.bellAt ⟨n, hn⟩).isLt
  rw [ne_eq, Fin.ext_iff] at moves
  simp only at above near moves
  have next : n + 1 < s.bells := by omega
  rw [if_pos next] at alone
  have swap : c.row.bellAt ⟨n, hn⟩ = ⟨n + 1, next⟩ := Fin.ext (by simp only; omega)
  have back := c.bellAt_eq_iff.1 swap
  rw [(hmade ⟨n + 1, next⟩).1 alone] at back
  simp at back

/-- A change is found from the places that it makes. -/
theorem ofMade_eq_ok : ofMade s made = .ok c := by
  have found : ofPaired s made (firstUnpaired_eq_none hmade) = c := by
    obtain ⟨row, near⟩ := c
    simp only [ofPaired, mk.injEq]
    ext p
    rw [Row.bellAt_ofFn]
    exact partner_eq hmade p
  rw [ofMade]
  split
  · exact congrArg _ found
  · rename_i p hp
    rw [firstUnpaired_eq_none hmade] at hp
    cases hp

end Pairing

/-! ## Places -/

theorem mem_places {p : Fin s.bells} : p.val ∈ c.places ↔ c.row.bellAt p = p := by
  simp [places, List.mem_map, Fin.val_inj]

theorem lt_of_mem_places {p : ℕ} (h : p ∈ c.places) : p < s.bells := by
  obtain ⟨q, -, rfl⟩ := List.mem_map.1 h
  exact q.isLt

theorem ofMade_places : ofMade s (fun p => p ∈ c.places) = .ok c :=
  ofMade_eq_ok fun p => by rw [decide_eq_true_eq, mem_places]

theorem places_injective : Function.Injective (places (s := s)) := by
  intro c d h
  have same := c.ofMade_places
  rw [h, d.ofMade_places] at same
  exact (Except.ok.inj same).symm

theorem pairwise_places : c.places.Pairwise (· < ·) :=
  List.pairwise_map.2 ((List.pairwise_lt_finRange s.bells).filter _)

/-! ## The cross -/

theorem ofMade_none : ofMade s (fun _ => false) = .ok (cross s) := by
  rw [ofMade]
  split
  · rfl
  · rename_i p hp
    rw [firstUnpaired_none] at hp
    cases hp

theorem bellAt_cross_eq_iff {p : Fin s.bells} :
    (cross s).row.bellAt p = p ↔ s.isOdd ∧ p.val = s.bells - 1 := by
  have parity : s.isOdd = true ↔ s.bells % 2 = 1 := decide_eq_true_iff
  have h := p.isLt
  rw [parity, cross, ofPaired, Row.bellAt_ofFn, Fin.ext_iff]
  simp only [partner, runBelow_none, Bool.false_eq_true, if_false]
  split
  · omega
  · split <;> omega

theorem places_cross : (cross s).places = if s.isOdd then [s.bells - 1] else [] := by
  have last := s.pos
  refine (cross s).pairwise_places.eq_of_mem_iff (by split <;> simp) fun p => ?_
  constructor
  · intro hp
    have lt := (cross s).lt_of_mem_places hp
    obtain ⟨odd, rfl⟩ := bellAt_cross_eq_iff.1 ((cross s).mem_places (p := ⟨p, lt⟩).1 hp)
    simp [odd]
  · intro hp
    split at hp
    · rename_i odd
      obtain rfl := List.mem_singleton.1 hp
      exact (cross s).mem_places (p := ⟨s.bells - 1, by omega⟩).2 (bellAt_cross_eq_iff.2 ⟨odd, rfl⟩)
    · cases hp

theorem isCross_iff : c.isCross = true ↔ c = cross s := by
  rw [isCross, decide_eq_true_eq, ← places_cross, places_injective.eq_iff]

end Campanology.Change
