import Campanology.Proofs.Truth.RelativeHeads

/-!
# False heads

A table is asked for the quotient of two heads, which is another one if the heads change places. Yet
to clash is to share a row, and that is symmetric; so with each quotient the table has its inverse,
although it is filled from pairs of rows in one order. The false heads are the quotients themselves
(`QuotientTable.mem_falseHeads`): the heads that clash with rounds. `QuotientTable.clash_is_sharing`
puts this together.
-/

namespace Campanology

variable {s : Stage}

theorem Block.exists_mem_begunFrom_iff {unit : Block s} {g h : Row s} :
    (∃ r ∈ (unit.begunFrom g).rows, r ∈ (unit.begunFrom h).rows) ↔ unit.Shares g h := by
  simp only [begunFrom, List.mem_map, Shares]
  constructor
  · rintro ⟨r, ⟨x, hx, rfl⟩, y, hy, e⟩
    exact ⟨x, hx, y, hy, e.symm⟩
  · rintro ⟨x, hx, y, hy, e⟩
    exact ⟨_, ⟨x, hx, rfl⟩, y, hy, e.symm⟩

namespace QuotientTable

/-! ## Heads that clash -/

theorem clash_mul (t : QuotientTable s) (f g h : Row s) :
    t.clash (f * g) (f * h) = t.clash g h := by
  rw [clash, witness?_mul, clash]

theorem clash_comm (unit : Block s) (g h : Row s) :
    (ofBlock unit).clash g h = (ofBlock unit).clash h g := by
  rw [Bool.eq_iff_iff, clash_iff, clash_iff]
  exact ⟨Block.Shares.symm, Block.Shares.symm⟩

/-! ## The heads of a table -/

section Table

variable (t : QuotientTable s)

/-- The false heads are those that clash with rounds. -/
theorem mem_falseHeads {h : Row s} : h ∈ t.falseHeads ↔ t.clash h (.rounds s) = true := by
  rw [falseHeads, List.mem_mergeSort, Std.HashMap.mem_keys, clash, witness?, Row.rounds_eq_one,
    inv_one, one_mul, Std.HashMap.isSome_getElem?_iff_mem]

theorem nodup_falseHeads : t.falseHeads.Nodup :=
  (List.mergeSort_perm _ _).nodup_iff.2 t.witnesses.nodup_keys

theorem length_falseHeads : t.falseHeads.length = t.size := by
  rw [falseHeads, List.length_mergeSort, Std.HashMap.length_keys, size]

end Table

variable (unit : Block s)

theorem inv_mem_falseHeads {h : Row s} :
    h⁻¹ ∈ (ofBlock unit).falseHeads ↔ h ∈ (ofBlock unit).falseHeads := by
  rw [mem_falseHeads, mem_falseHeads, Row.rounds_eq_one, clash_comm, ← clash_mul _ h,
    mul_inv_cancel, mul_one]

theorem rounds_mem_falseHeads : Row.rounds s ∈ (ofBlock unit).falseHeads ↔ unit.rows ≠ [] := by
  rw [mem_falseHeads, clash_iff]
  constructor
  · rintro ⟨x, hx, -⟩
    exact List.ne_nil_of_mem hx
  · intro some
    exact ⟨_, List.head_mem some, _, List.head_mem some, rfl⟩

/-- **To clash is to share a row.** Two heads clash in the table of a unit exactly if the blocks
which are the unit begun from either have a row in common. So it does not matter which of the heads
comes first, nor by which row both are multiplied from the left. The false heads of the table are
the heads that clash with rounds; none is listed twice, and they are as many as the table is large.
With a head its inverse is false, and rounds is false exactly if the unit has a row. -/
theorem clash_is_sharing :
    let table := QuotientTable.ofBlock unit
    (∀ g h : Row s, ∃ b b' found,
      unit.begunFromAny (.of g) = .ok b ∧ unit.begunFromAny (.of h) = .ok b' ∧
      table.clashAny (.of g) (.of h) = .ok found ∧
      (found = true ↔ ∃ r ∈ b.rows, r ∈ b'.rows) ∧
      table.clashAny (.of h) (.of g) = .ok found ∧
      ∀ f, table.clashAny (.of (f * g)) (.of (f * h)) = .ok found) ∧
    (∀ h, h ∈ table.falseHeads ↔ table.clashAny (.of h) (.of (.rounds s)) = .ok true) ∧
    table.falseHeads.Nodup ∧ table.falseHeads.length = table.size ∧
    (∀ h, h⁻¹ ∈ table.falseHeads ↔ h ∈ table.falseHeads) ∧
    (.rounds s ∈ table.falseHeads ↔ unit.rows ≠ []) := by
  intro table
  refine ⟨fun g h => ⟨_, _, table.clash g h, unit.begunFromAny_of g, unit.begunFromAny_of h,
      clashAny_of table g h, ?_, ?_, fun f => ?_⟩, fun h => ?_, table.nodup_falseHeads,
    table.length_falseHeads, fun h => inv_mem_falseHeads unit, rounds_mem_falseHeads unit⟩
  · rw [clash_iff, Block.exists_mem_begunFrom_iff]
  · rw [clashAny_of, clash_comm]
  · rw [clashAny_of, clash_mul]
  · rw [mem_falseHeads, clashAny_of, Except.ok.injEq]

end QuotientTable

end Campanology
