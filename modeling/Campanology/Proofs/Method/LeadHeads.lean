import Campanology.Proofs.Block.Partition
import Campanology.Proofs.Ringing.OtherStarts

/-!
# Lead heads are powers of the lead head

Each lead multiplies the row by the lead head from the right, wherever it is begun. So after `i`
leads from a seed the row is the seed times the `i`-th power of the lead head, and this row, the
last one being left over, is the head of the next lead (`Method.leadHeads_ringLeads`). A lead from
there is the lead from rounds, begun from that row (`Method.leads_ringLeads`), and so a row is told
by the number of its lead and its index in it, whether these are looked up in the leads one after
another or told by the position of its offset (`Method.leadHeads_are_powers`).
-/

namespace Campanology

/-! ## Rows by position -/

namespace Block

variable {s : Stage} {b : Block s}

theorem get_natCast_eq_ok_iff {j : ℕ} {r : Row s} : b.get j = .ok r ↔ b.rows[j]? = some r := by
  have index : (indexFrom? b.rows.length j).bind (fun k => b.rows[k]?) = b.rows[j]? := by
    by_cases within : j < b.rows.length
    · simp [indexFrom?, within]
    · simp [indexFrom?, within]
  rw [get, index]
  cases b.rows[j]? <;> simp

/-- The row of an offset is the one at the index of its position, in the lead of its position. -/
theorem exists_lead_of_position {j : ℕ} {pos : Position} (h : b.position j = .ok pos) :
    ∃ (lead : List (Row s)) (r : Row s), b.leads[pos.lead]? = some lead ∧
      lead[pos.index]? = some r ∧ b.get j = .ok r := by
  obtain ⟨⟨-, high⟩, rfl⟩ := b.position_eq_ok_iff.1 h
  have within : j < b.rows.length := by exact_mod_cast high
  obtain ⟨lead, here, row⟩ := exists_getElem?_cut b.cuts (Nat.zero_le j) within
  rw [List.getElem?_eq_getElem within] at row
  exact ⟨lead, _, here, row, get_natCast_eq_ok_iff.2 (List.getElem?_eq_getElem within)⟩

end Block

/-! ## Leads of a method -/

namespace Method

variable (m : Method) (seed : Row m.stage) (count : ℕ)

/-- The heads of so many leads are the powers of the lead head, the row left over being the last. -/
theorem leadHeads_ringLeads : (ringingLeads seed m.changes count).leadHeads =
    (List.range (count + 1)).map fun i : ℕ => seed * m.leadHead.pow i := by
  rw [leadHeads_ringingLeads seed m.changes_ne_nil, leftover_ringingLeads seed m.changes_ne_nil,
    ← leadHead_eq_product, List.range_succ, List.map_append]
  simp only [Row.pow_natCast, List.map_singleton]

/-- A lead is the lead from rounds, begun from its head. -/
theorem leads_ringLeads : (ringingLeads seed m.changes count).leads =
    (List.range count).map fun i : ℕ =>
      ((m.leadFrom (Row.rounds m.stage)).begunFrom (seed * m.leadHead.pow i)).rows := by
  rw [leads_ringingLeads seed m.changes_ne_nil]
  refine List.map_congr_left fun i _ => ?_
  rw [leadFrom, ← ringingLeads_mul, rows_ringingLeads _ m.changes_ne_nil, Row.pow_natCast,
    leadHead_eq_product]
  simp [Row.rounds_eq_one]

/-- **Lead heads are powers of the lead head.** The heads of `c` leads from a seed are the seed
times the powers of the lead head up to the `c`-th, which is left over, and there is no lead but
these `c`. One lead goes from the seed to the seed times the lead head. In lead `i` stand the rows
of the lead from rounds, begun from the head of lead `i`, and so a row whose position is in lead `i`
is that head times the row of its index in the lead from rounds. -/
theorem leadHeads_are_powers (m : Method) (seed : Row m.stage) :
    (∀ c : ℕ, ∃ b first : Block m.stage,
      ringLeads (.of seed) (m.changes.map .of) c = .ok (.of b) ∧
      b.leadHeads = (List.range (c + 1)).map (fun i : ℕ => seed * m.leadHead.pow i) ∧
      b.leadCount = c ∧
      m.lead (.of (Row.rounds m.stage)) = .ok (.of first) ∧ first.rows.length = m.leadLength ∧
      (∀ i < c, b.lead i = .ok (first.rows.map fun r => seed * m.leadHead.pow i * r)) ∧
      ∀ (offset : ℕ) pos, b.position offset = .ok pos →
        pos.lead < c ∧ ∃ r, first.rows[pos.index]? = some r ∧
          b.get offset = .ok (seed * m.leadHead.pow pos.lead * r)) ∧
    ∃ b : Block m.stage, m.lead (.of seed) = .ok (.of b) ∧ b.rows.head? = some seed ∧
      b.leftover = seed * m.leadHead := by
  have ne := m.changes_ne_nil
  refine ⟨fun c => ⟨_, _, ringLeads_map_of seed ne c, m.leadHeads_ringLeads seed c,
    leadCount_ringingLeads seed ne c, m.lead_rounds, ?_, fun i hi => ?_, fun offset pos h => ?_⟩,
    _, ringLeads_map_of seed ne 1, ?_, ?_⟩
  · rw [leadFrom, length_rows_ringingLeads _ ne, Nat.one_mul]
    rfl
  · rw [Block.lead_natCast_eq_ok_iff, leads_ringLeads, List.getElem?_map, List.getElem?_range hi]
    rfl
  · obtain ⟨lead, r, here, row, get⟩ := Block.exists_lead_of_position h
    rw [leads_ringLeads, List.getElem?_map, Option.map_eq_some_iff] at here
    obtain ⟨i, hi, rfl⟩ := here
    obtain ⟨lt, rfl⟩ := List.getElem?_eq_some_iff.1 hi
    rw [Block.begunFrom, List.getElem?_map, Option.map_eq_some_iff] at row
    obtain ⟨r, row, rfl⟩ := row
    rw [List.getElem_range] at get
    exact ⟨by simpa using lt, r, row, get⟩
  · rw [rows_ringingLeads seed ne]
    simpa using Change.head?_rung seed ne
  · rw [leftover_ringingLeads seed ne, ← leadHead_eq_product, pow_one]

/-- Plain hunt at three bells from backrounds: of three leads the last one begins with the square of
the lead head, its second row is the sixth of the block, and no leads at all leave the seed. -/
theorem leadHeads_are_powers_three_bells :
    let s : Stage := ⟨3, by decide, by decide⟩
    let m : Method :=
      ⟨"Plain Hunt", s, [.cross s, .ofPaired s (· = 0) (by decide)], {}, none, by decide⟩
    let seed : Row s := .backrounds s
    (∃ b first : Block s, ringLeads (.of seed) (m.changes.map .of) 3 = .ok (.of b) ∧
      m.lead (.of (.rounds s)) = .ok (.of first) ∧
      b.leadHeads[2]? = some (seed * m.leadHead.pow 2) ∧
      2 < 3 ∧ b.lead 2 = .ok (first.rows.map fun r => seed * m.leadHead.pow 2 * r) ∧
      b.position 5 = .ok ⟨2, 1, 5⟩ ∧
      ∃ r, first.rows[1]? = some r ∧ b.get 5 = .ok (seed * m.leadHead.pow 2 * r)) ∧
    ∃ b : Block s, ringLeads (.of seed) (m.changes.map .of) 0 = .ok (.of b) ∧
      b.leadHeads = [seed] := by
  intro s m seed
  obtain ⟨blocks, -⟩ := leadHeads_are_powers m seed
  obtain ⟨b, first, rung, heads, -, lead, -, leads, rows⟩ := blocks 3
  obtain ⟨none, -, rung', heads', -⟩ := blocks 0
  have same := Except.ok.inj (rung.symm.trans (ringLeads_map_of seed m.changes_ne_nil 3))
  have known : b = ringingLeads seed m.changes 3 := eq_of_heq (Staged.mk.inj same).2
  have position : b.position 5 = .ok ⟨2, 1, 5⟩ := by
    rw [known]
    decide +kernel
  obtain ⟨-, r, here, row⟩ := rows 5 _ position
  exact ⟨⟨b, first, rung, lead, by rw [heads]; rfl, by decide, leads 2 (by decide), position, r,
    here, row⟩, none, rung', heads'.trans (by simp [Row.pow_eq_zpow])⟩

end Method

end Campanology
