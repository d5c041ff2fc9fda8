import Campanology.Proofs.Ringing.ReadOff

/-!
# Ringing row by row

A number of rows may be rung one at a time. As long as there are fewer, the next change of the lead
is made; if that was the last change of the lead, the end is marked and the first change is next
again (`Touch.RingsRows`). After `k` rows this has come as far as ringing whole leads, and then the
changes that are left for the rest of the rows (`Touch.afterRows`): the change made from there
completes a lead or does not, and either way leads to the same for `k + 1` rows
(`Touch.ringsRows_iff_succ`). So ringing row by row has one end, and it is the block that is rung
lead by lead (`Touch.ringsRows_iff`).

The row after `k` changes is the seed times these changes in their order, each of them the one at
its index modulo the number of changes in a lead (`Change.turn`, `Touch.allRows_afterRows`). A
number of rows which makes whole leads rings these leads and nothing else
(`rowCount_rings_turns`).
-/

namespace Campanology

variable {s : Stage}

namespace Change

/-! ## Changes in turn -/

/-- The change that is made after `i` others, if a lead is begun again each time it is done. -/
def turn (lead : List (Change s)) (ne : lead ≠ []) (i : ℕ) : Change s :=
  lead.get ⟨i % lead.length, Nat.mod_lt i (List.length_pos_iff.2 ne)⟩

variable {lead : List (Change s)} (ne : lead ≠ [])

theorem getElem?_mod (i : ℕ) : lead[i % lead.length]? = some (turn lead ne i) :=
  List.getElem?_eq_getElem _

/-- Whole leads and a part of one are the changes in turn. -/
theorem repeated_eq_turns (k : ℕ) :
    (List.replicate (k / lead.length) lead).flatten ++ lead.take (k % lead.length) =
      (List.range k).map (turn lead ne) := by
  have part : k % lead.length ≤ lead.length := (Nat.mod_lt k (List.length_pos_iff.2 ne)).le
  have total : k / lead.length * lead.length + k % lead.length = k := by
    rw [Nat.mul_comm, Nat.div_add_mod]
  refine List.ext_getElem? fun i => ?_
  rcases Nat.lt_or_ge i k with lt | ge
  · rw [getElem?_repeated part _ (total.symm ▸ lt), getElem?_mod ne, List.getElem?_map,
      List.getElem?_range lt, Option.map_some]
  · rw [List.getElem?_eq_none, List.getElem?_eq_none]
    · simpa using ge
    · simpa [part, total] using ge

/-- The row after so many changes. -/
theorem through_eq_map (r : Row s) (cs : List (Change s)) :
    through r cs = (List.range (cs.length + 1)).map fun k => r * product (cs.take k) := by
  induction cs generalizing r with
  | nil => simp [through, rung]
  | cons c cs ih =>
    rw [through_cons, ih, List.length_cons, List.range_succ_eq_map (n := cs.length + 1),
      List.map_cons, List.map_map]
    simp [Function.comp_def, product_cons, next, mul_assoc]

end Change

open Change

namespace Touch

/-! ## Rows one at a time -/

/-- Ringing up to a number of rows, one at a time, the change at an index of the lead being next:
what the touch becomes. -/
inductive RingsRows (lead : List (Change s)) (count : ℕ) : ℕ → Touch s → Touch s → Prop
  /-- There are rows enough. -/
  | enough {i : ℕ} {t : Touch s} (rows : count ≤ t.rows.size) : RingsRows lead count i t t
  /-- A change that does not complete the lead. -/
  | goesOn {i : ℕ} {c : Change s} {t t' u : Touch s} (short : t.rows.size < count)
    (here : lead[i]? = some c) (made : t.extend (.of c) = .ok t') (on : i + 1 ≠ lead.length)
    (rest : RingsRows lead count (i + 1) t' u) : RingsRows lead count i t u
  /-- The last change of the lead, after which the end is marked. -/
  | beginsAgain {i : ℕ} {c : Change s} {t t' t'' u : Touch s} (short : t.rows.size < count)
    (here : lead[i]? = some c) (made : t.extend (.of c) = .ok t') (last : i + 1 = lead.length)
    (marked : t'.markLead = .ok t'') (rest : RingsRows lead count 0 t'' u) :
    RingsRows lead count i t u

/-- The touch after `k` rows: the whole leads among them, and the rest of the changes. -/
def afterRows (seed : Row s) (lead : List (Change s)) (k : ℕ) : Touch s :=
  ((start seed).ringLeads lead (k / lead.length)).ringAll (lead.take (k % lead.length))

section AfterRows

variable (seed : Row s) {lead : List (Change s)} (ne : lead ≠ []) (k : ℕ)

theorem phase_ringLeads {t : Touch s} (isOpen : t.phase ≠ .stood) (count : ℕ) :
    (t.ringLeads lead count).phase ≠ .stood := by
  induction count generalizing t with
  | zero => exact isOpen
  | succ count ih =>
    refine ih ?_
    rw [ringLead]
    split
    · simp [closeLead]
    · rw [phase_ringAll]
      split
      · exact isOpen
      · simp

theorem phase_afterRows : (afterRows seed lead k).phase ≠ .stood := by
  rw [afterRows, phase_ringAll]
  split
  · exact phase_ringLeads (by simp [start]) _
  · simp

include ne

theorem size_rows_afterRows : (afterRows seed lead k).rows.size = k := by
  have part := Nat.mod_lt k (List.length_pos_iff.2 ne)
  rw [afterRows, size_rows_ringAll, size_rows_ringLeads ne, List.length_take_of_le part.le]
  simp [start, Nat.div_add_mod']

theorem leadEnds_afterRows : (afterRows seed lead k).leadEnds.toList =
    (List.range (k / lead.length)).map fun i => (i + 1) * lead.length := by
  rw [afterRows, leadEnds_ringAll, leadEnds_ringLeads ne]
  simp [start]

theorem allRows_afterRows : (afterRows seed lead k).allRows =
    (List.range (k + 1)).map fun i => seed * product ((List.range i).map (turn lead ne)) := by
  have rows := (start seed).allRows_ringAll_ringLeads lead (lead.take (k % lead.length))
    (k / lead.length)
  rw [repeated_eq_turns ne, through_eq_map, List.length_map, List.length_range] at rows
  refine rows.trans (List.map_congr_left fun i hi => ?_)
  have le : i ≤ k := Nat.lt_succ_iff.1 (List.mem_range.1 hi)
  rw [← List.map_take, List.take_range, Nat.min_eq_left le]
  rfl

/-! ## One row more -/

/-- The change that is next takes the place of the changes that are left. -/
theorem ring_turn_afterRows : (afterRows seed lead k).ring (turn lead ne k) =
    ((start seed).ringLeads lead (k / lead.length)).ringAll
      (lead.take (k % lead.length + 1)) := by
  have next : lead.take (k % lead.length + 1) =
      lead.take (k % lead.length) ++ [turn lead ne k] := by
    rw [List.take_add_one, getElem?_mod ne, Option.toList_some]
  rw [next, ringAll, List.foldl_append]
  rfl

/-- A change which does not complete the lead leads to the touch of a row more. -/
theorem afterRows_succ_of_ne (on : k % lead.length + 1 ≠ lead.length) :
    (k + 1) % lead.length = k % lead.length + 1 ∧
      afterRows seed lead (k + 1) = (afterRows seed lead k).ring (turn lead ne k) := by
  have lt := Nat.mod_lt k (List.length_pos_iff.2 ne)
  obtain ⟨whole, rest⟩ : (k + 1) / lead.length = k / lead.length ∧
      (k + 1) % lead.length = k % lead.length + 1 := by
    rw [Nat.div_mod_unique (List.length_pos_iff.2 ne)]
    exact ⟨by rw [Nat.add_right_comm, Nat.mod_add_div], by omega⟩
  refine ⟨rest, ?_⟩
  rw [ring_turn_afterRows, afterRows, whole, rest]

/-- A change which completes the lead does so when its end is marked. -/
theorem afterRows_succ_of_eq (last : k % lead.length + 1 = lead.length) :
    (k + 1) % lead.length = 0 ∧
      ((afterRows seed lead k).ring (turn lead ne k)).markLead =
        .ok (afterRows seed lead (k + 1)) := by
  obtain ⟨whole, rest⟩ : (k + 1) / lead.length = k / lead.length + 1 ∧
      (k + 1) % lead.length = 0 := by
    rw [Nat.div_mod_unique (List.length_pos_iff.2 ne)]
    refine ⟨?_, List.length_pos_iff.2 ne⟩
    have total := Nat.mod_add_div k lead.length
    rw [Nat.mul_succ]
    omega
  refine ⟨rest, markLead_eq_ok_iff.2 ⟨nofun, ?_⟩⟩
  have full : afterRows seed lead (k + 1) =
      ((start seed).ringLeads lead (k / lead.length)).ringLead lead := by
    rw [afterRows, whole, rest, ringLeads_succ]
    rfl
  have made : (afterRows seed lead k).ring (turn lead ne k) =
      ((start seed).ringLeads lead (k / lead.length)).ringAll lead := by
    rw [ring_turn_afterRows, last, List.take_length]
  rw [made, full]
  exact ringLead_eq ne _

variable {k}

/-- **A row more**: as long as there are too few rows, ringing goes on from the touch of one row
more, with the change at the next index. -/
theorem ringsRows_iff_succ {count : ℕ} (short : k < count) {u : Touch s} :
    RingsRows lead count (k % lead.length) (afterRows seed lead k) u ↔
      RingsRows lead count ((k + 1) % lead.length) (afterRows seed lead (k + 1)) u := by
  have size := size_rows_afterRows seed ne k
  have less : (afterRows seed lead k).rows.size < count := size.symm ▸ short
  have here := getElem?_mod ne k
  have made : (afterRows seed lead k).extend (.of (turn lead ne k)) =
      .ok ((afterRows seed lead k).ring (turn lead ne k)) :=
    extend_eq_ok_iff.2 ⟨phase_afterRows seed k, _, rfl, rfl⟩
  by_cases last : k % lead.length + 1 = lead.length
  · obtain ⟨first, marked⟩ := afterRows_succ_of_eq seed ne k last
    rw [first]
    refine ⟨fun h => ?_, .beginsAgain less here made last marked⟩
    cases h with
    | enough rows => omega
    | goesOn _ _ _ on => exact absurd last on
    | beginsAgain _ here' made' _ marked' rest =>
      obtain rfl := Option.some.inj (here.symm.trans here')
      obtain rfl := Except.ok.inj (made.symm.trans made')
      obtain rfl := Except.ok.inj (marked.symm.trans marked')
      exact rest
  · obtain ⟨next, same⟩ := afterRows_succ_of_ne seed ne k last
    rw [next, same]
    refine ⟨fun h => ?_, .goesOn less here made last⟩
    cases h with
    | enough rows => omega
    | beginsAgain _ _ _ done => exact absurd done last
    | goesOn _ here' made' _ rest =>
      obtain rfl := Option.some.inj (here.symm.trans here')
      obtain rfl := Except.ok.inj (made.symm.trans made')
      exact rest

/-- Ringing row by row comes to the touch of the rows that are asked for, and to no other. -/
theorem ringsRows_iff {count : ℕ} (le : k ≤ count) {u : Touch s} :
    RingsRows lead count (k % lead.length) (afterRows seed lead k) u ↔
      u = afterRows seed lead count := by
  -- on the rows that are still to be rung
  induction left : count - k generalizing k with
  | zero =>
    obtain rfl : k = count := by omega
    have size := size_rows_afterRows seed ne k
    constructor
    · intro h
      cases h with
      | enough => rfl
      | goesOn short => omega
      | beginsAgain short => omega
    · rintro rfl
      exact .enough size.ge
  | succ left ih =>
    rw [ringsRows_iff_succ seed ne (by omega)]
    exact ih (by omega) (by omega)

end AfterRows

end Touch

/-! ## Blocks of a number of rows -/

/-- There are settings for any number of rows. -/
theorem Settings.rows_natCast (r : ℕ) : ∃ settings, Settings.rows r = .ok settings ∧
    settings.rule = .rowCount ∧ settings.rowCount = some (r : ℤ) := by
  simp [Settings.rows, Settings.make, isCount, defaultMaxRows, defaultMaxLeads]

theorem ring_of_rowCount (seed : Row s) {lead : List (Change s)} (ne : lead ≠ [])
    {settings : Settings} {r : ℕ} (rule : settings.rule = .rowCount)
    (rows : settings.rowCount = some (r : ℤ)) :
    ring (.of seed) (lead.map .of) (some settings) =
      .ok (.of (Touch.afterRows seed lead r).block) := by
  rw [ring_map_of seed ne, Option.getD_some, ringing, rule, rows, Option.getD_some,
    Int.toNat_natCast]
  rfl

/-- **A number of rows is rung by the changes of the lead in turn.** Ringing row by row comes to one
end, and it is the block that the settings for so many rows ring, whatever else they say: it has
just so many rows, the row after `k` changes, the leftover row being the last of them, is the seed
times these changes in turn, and the leads end at the multiples of the length of the lead. If the
rows make whole leads, it is the block of that number of leads. -/
theorem rowCount_rings_turns (seed : Row s) (lead : List (Change s)) (ne : lead ≠ []) :
    (∀ r : ℕ, ∃ t : Touch s,
      (∀ u, Touch.RingsRows lead r 0 (.start seed) u ↔ u = t) ∧
      (∃ settings, Settings.rows r = .ok settings ∧
        settings.rule = .rowCount ∧ settings.rowCount = some (r : ℤ)) ∧
      (∀ settings : Settings, settings.rule = .rowCount → settings.rowCount = some (r : ℤ) →
        ring (.of seed) (lead.map .of) (some settings) = .ok (.of t.block)) ∧
      t.block.rows.length = r ∧
      t.block.allRows =
        (List.range (r + 1)).map (fun k => seed * product ((List.range k).map (turn lead ne))) ∧
      t.block.leadEnds = (List.range (r / lead.length)).map fun i => (i + 1) * lead.length) ∧
    ∀ (c : ℕ) (settings : Settings), settings.rule = .rowCount →
      settings.rowCount = some ((c * lead.length : ℕ) : ℤ) →
      ringLeads (.of seed) (lead.map .of) c =
        ring (.of seed) (lead.map .of) (some settings) := by
  refine ⟨fun r => ⟨.afterRows seed lead r, fun u => ?_, Settings.rows_natCast r,
    fun settings => ring_of_rowCount seed ne, ?_, Touch.allRows_afterRows seed ne r,
    Touch.leadEnds_afterRows seed ne r⟩, fun c settings rule rows => ?_⟩
  · have first := Touch.ringsRows_iff seed ne (Nat.zero_le r) (u := u)
    simpa [Touch.afterRows, Touch.ringLeads, Touch.ringAll] using first
  · rw [Touch.block, Array.length_toList, Touch.size_rows_afterRows seed ne]
  · have pos := List.length_pos_iff.2 ne
    rw [ringLeads_map_of seed ne, ring_of_rowCount seed ne rule rows, Touch.afterRows,
      Nat.mul_div_cancel c pos, Nat.mul_mod_left]
    rfl

/-- Plain hunt at three bells for five rows, which end inside the third lead, and for four, which
are two leads. -/
theorem rowCount_rings_turns_three_bells :
    let s : Stage := ⟨3, by decide, by decide⟩
    let lead : List (Change s) := [.cross s, .ofPaired s (· = 0) (by decide)]
    let seed : Row s := .backrounds s
    let five : Settings :=
      ⟨.rowCount, some 5, some (-1), 1, 1, by decide, nofun, by decide, by decide⟩
    let four : Settings := ⟨.rowCount, some 4, none, 9, 9, by decide, nofun, by decide, by decide⟩
    lead ≠ [] ∧
      (∃ t : Touch s, Touch.RingsRows lead 5 0 (.start seed) t ∧
        ring (.of seed) (lead.map .of) (some five) = .ok (.of t.block) ∧
        t.block.allRows[5]? = some (seed * product (lead ++ lead ++ [.cross s])) ∧
        t.block.leadEnds = [2, 4]) ∧
      ringLeads (.of seed) (lead.map .of) 2 = ring (.of seed) (lead.map .of) (some four) := by
  intro s lead seed five four
  have ne : lead ≠ [] := List.cons_ne_nil _ _
  obtain ⟨blocks, leads⟩ := rowCount_rings_turns seed lead ne
  obtain ⟨t, rings, -, rung, -, rows, ends⟩ := blocks 5
  have turns : (List.range 5).map (turn lead ne) = lead ++ lead ++ [.cross s] :=
    (repeated_eq_turns ne 5).symm.trans (by decide)
  refine ⟨ne, ⟨t, (rings t).2 rfl, rung five rfl rfl, ?_, ends.trans (by decide)⟩,
    leads 2 four rfl rfl⟩
  rw [rows, List.getElem?_map, List.getElem?_range (by decide), Option.map_some, turns]

end Campanology
