import Campanology.Proofs.Ringing.ReadOff
import Campanology.Proofs.Row.Sign

/-!
# The signs of rows that are rung

A change undoes itself, and so its row falls into swaps and the places that it makes: its sign is
that of the number of its swaps (`Change.parity_row`). Each change that is rung therefore turns the
sign of the row or leaves it, and the sign of every row of a block is known from that of the first
(`parity_tells_swaps`).
-/

namespace Campanology

open Change

variable {s : Stage}

/-! ## Changes -/

namespace Change

/-- The number of swaps of a change. -/
def swaps (c : Change s) : ℕ := (s.bells - c.places.length) / 2

variable (c : Change s)

theorem row_mul_row : c.row * c.row = 1 := by
  nth_rewrite 1 [← c.inv_row]
  exact inv_mul_cancel c.row

theorem card_fixedPoints_row :
    Fintype.card (Function.fixedPoints c.row.perm) = c.places.length := by
  have apart : ((List.finRange s.bells).filter fun p => c.row.bellAt p = p).Nodup :=
    (List.nodup_finRange _).filter _
  rw [places, List.length_map, ← List.toFinset_card_of_nodup apart]
  refine Fintype.card_of_subtype _ fun p => ?_
  rw [List.mem_toFinset, List.mem_filter, decide_eq_true_eq]
  exact and_iff_right (List.mem_finRange p)

/-- The sign of a change is that of its number of swaps. -/
theorem parity_row : c.row.parity = .even ↔ Even c.swaps := by
  have twice : c.row.perm ^ 2 = 1 := by
    rw [pow_two, ← map_mul, row_mul_row, map_one]
  rw [Row.parity_eq_even_iff_sign, Equiv.Perm.sign_of_pow_two_eq_one twice,
    neg_one_pow_eq_one_iff_even (by decide), card_fixedPoints_row, Fintype.card_fin, swaps]

end Change

/-! ## Rows one after another -/

/-- The sign of the row after changes, from that of the row before them: each change with an odd
number of swaps turns it. -/
def Parity.after (sign : Parity) (cs : List (Change s)) : Parity :=
  cs.foldl (fun sign c => if Odd c.swaps then sign.flip else sign) sign

theorem parity_next (c : Change s) (r : Row s) :
    (c.next r).parity = if Odd c.swaps then r.parity.flip else r.parity := by
  rw [next, Parity.eq_iff_even, Row.parity_mul_eq_even_iff, Parity.eq_iff_even, c.parity_row]
  by_cases odd : Odd c.swaps
  · rw [if_pos odd, Parity.flip_eq_even_iff]
    simp [Nat.not_even_iff_odd.2 odd]
  · rw [if_neg odd]
    simp [Nat.not_odd_iff_even.1 odd]

/-- Every row that changes lead through has the sign that the changes before it make. -/
theorem parity_through {cs : List (Change s)} {r r' : Row s} {k : ℕ}
    (h : (through r cs)[k]? = some r') : r'.parity = r.parity.after (cs.take k) := by
  induction cs generalizing r k with
  | nil =>
    have first : through r [] = [r] := by simp [through, rung]
    rw [first, List.getElem?_singleton] at h
    split at h
    · rw [← Option.some.inj h, List.take_nil]
      rfl
    · cases h
  | cons c cs ih =>
    rw [through_cons] at h
    cases k with
    | zero =>
      obtain rfl : r = r' := by simpa using h
      rfl
    | succ k =>
      rw [List.getElem?_cons_succ] at h
      rw [ih h, parity_next, List.take_succ_cons, Parity.after, Parity.after, List.foldl_cons]

/-- **The sign of a row is that of any number of swaps that make it.** It is even just if the number
of inversions is; a product is even just if both rows have one sign; a row and its inverse have the
same; and a change is even just if the number of its swaps is. So, in whatever way a block is rung,
its rows have the sign of the seed, turned by each change before them that has an odd number of
swaps. -/
theorem parity_tells_swaps (s : Stage) :
    (∀ a : Row s, a.parity = .even ↔
      Even (Finset.card {x : Fin s.bells × Fin s.bells |
        x.1 < x.2 ∧ a.bellAt x.2 < a.bellAt x.1})) ∧
    (∀ a b : Row s, (a * b).parity = .even ↔ a.parity = b.parity) ∧
    (∀ a : Row s, a⁻¹.parity = a.parity) ∧
    (∀ c : Change s, c.row.parity = .even ↔ Even ((s.bells - c.places.length) / 2)) ∧
    (∀ (seed : Row s) (history : List Touch.Request) (k : ℕ) (r : Row s),
      ((Touch.start seed).after history).allRows[k]? = some r →
        r.parity = seed.parity.after (((Touch.start seed).changesMade history).take k)) ∧
    ∀ (seed : Row s) changes settings x, ring (.of seed) changes settings = .ok x →
      ∃ (lead : List (Change s)) (b : Block s) (cs : List (Change s)),
        changes = lead.map .of ∧ x = .of b ∧ cs.length = b.rows.length ∧
        (∀ k < cs.length, cs[k]? = lead[k % lead.length]?) ∧
        ∀ (k : ℕ) (r : Row s), b.allRows[k]? = some r →
          r.parity = seed.parity.after (cs.take k) := by
  refine ⟨Row.parity_eq_even_iff_inversions, Row.parity_mul_eq_even_iff, Row.parity_inv,
    Change.parity_row, fun seed history k r h => ?_, fun seed changes settings x rung => ?_⟩
  · rw [Touch.allRows_after] at h
    exact parity_through h
  · obtain ⟨lead, b, ne, e, e', rings⟩ := exists_of_ring rung
    obtain ⟨cs, length, again, rows⟩ := exists_through_ringing ne rings
    exact ⟨lead, b, cs, e, e', length, again, fun k r h => parity_through (rows ▸ h)⟩

/-- At four bells from an odd row: three changes, the second of them a single swap, and three rows
rung by repeating a lead of two changes. -/
theorem parity_tells_swaps_four_bells :
    let s : Stage := ⟨4, by decide, by decide⟩
    let cross : Change s := .cross s
    let ends : Change s := .ofPaired s (fun p => p = 0 || p = 3) (by decide)
    let seed : Row s := product [cross, ends]
    let history : List Touch.Request :=
      [.extend (.of cross), .markLead, .extendAll [.of ends, .of cross]]
    let settings : Settings :=
      ⟨.rowCount, some 3, none, 9, 9, by decide, nofun, by decide, by decide⟩
    seed.parity = .odd ∧
    (∃ r, ((Touch.start seed).after history).allRows[3]? = some r ∧ r.parity = .even) ∧
    ∃ (b : Block s) (r : Row s) (cs : List (Change s)),
      ring (.of seed) [.of cross, .of ends] (some settings) = .ok (.of b) ∧
      b.allRows[3]? = some r ∧ cs[1]? = some ends ∧ r.parity = seed.parity.after (cs.take 3) := by
  intro s cross ends seed history settings
  obtain ⟨-, -, -, -, rows, rung⟩ := parity_tells_swaps s
  have made : (Touch.start seed).changesMade history = [cross, ends, cross] := rfl
  have last : ((Touch.start seed).after history).allRows[3]? =
      some (seed * product [cross, ends, cross]) := by
    rw [Touch.allRows_after, made]
    rfl
  have sign := rows seed history 3 _ last
  rw [made] at sign
  have rings : ring (.of seed) [.of cross, .of ends] (some settings) =
      .ok (.of (((Touch.start seed).ringLeads [cross, ends] 1).ringAll [cross]).block) := by
    refine (ring_map_of seed (List.cons_ne_nil cross [ends]) (some settings)).trans ?_
    simp [ringing, settings, Except.mapError, Except.map]
  obtain ⟨lead, b, cs, e, e', length, again, signs⟩ := rung seed _ _ _ rings
  cases e'
  obtain rfl : [cross, ends] = lead := List.map_injective_iff.2 staged_of_injective e
  have three : cs.length = 3 := length
  exact ⟨by decide, ⟨_, last, sign.trans (by decide)⟩, _, _, cs, rings, rfl,
    again 1 (by omega), signs 3 _ rfl⟩

end Campanology
