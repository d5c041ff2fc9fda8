import Mathlib.Algebra.Group.Pointwise.Finset.Basic
import Campanology.Proofs.Truth.FalseHeads

/-!
# The size of a table

The keys of a table are the quotients of two rows of its unit (`keys_ofBlock`). So they depend on
the set of the rows alone, and not even on that if all rows are multiplied from the right by one and
the same row, which cancels out (`div_image_mul_right`).

To divide different rows by one of them gives different quotients, and so there are at least as many
keys as different rows. There are at most as many as pairs of different rows, and rounds, to which
each row divided by itself comes (`card_div_self_le`). `size_by_different_rows` puts this together.
-/

namespace Campanology

open scoped Pointwise

section Quotients

variable {G : Type} [Group G] [DecidableEq G] (rows : Finset G)

theorem div_image_mul_right (x : G) : rows.image (· * x) / rows.image (· * x) = rows / rows := by
  ext q
  simp only [Finset.mem_div, Finset.exists_mem_image, mul_div_mul_right_eq_div]

/-- Different elements have a quotient for each pair of them, and one more. -/
theorem card_div_self_le : (rows / rows).card ≤ rows.card * (rows.card - 1) + 1 := by
  have among : rows / rows ⊆ insert 1 (rows.offDiag.image fun p => p.1 / p.2) := by
    intro q hq
    obtain ⟨b, hb, a, ha, rfl⟩ := Finset.mem_div.1 hq
    rw [Finset.mem_insert, Finset.mem_image]
    by_cases same : b = a
    · exact .inl (same ▸ div_self' b)
    · exact .inr ⟨(b, a), Finset.mem_offDiag.2 ⟨hb, ha, same⟩, rfl⟩
  calc (rows / rows).card
      ≤ (insert 1 (rows.offDiag.image fun p => p.1 / p.2)).card := Finset.card_le_card among
    _ ≤ (rows.offDiag.image fun p => p.1 / p.2).card + 1 := Finset.card_insert_le ..
    _ ≤ rows.offDiag.card + 1 := Nat.add_le_add_right Finset.card_image_le 1
    _ = rows.card * (rows.card - 1) + 1 := by rw [Finset.offDiag_card, Nat.mul_sub_one]

end Quotients

namespace QuotientTable

variable {s : Stage}

/-- The rows that have a witness. -/
def keys (t : QuotientTable s) : Finset (Row s) := t.witnesses.keys.toFinset

theorem card_keys (t : QuotientTable s) : t.keys.card = t.size := by
  rw [keys, List.toFinset_card_of_nodup t.witnesses.nodup_keys, Std.HashMap.length_keys, size]

theorem toFinset_falseHeads (t : QuotientTable s) : t.falseHeads.toFinset = t.keys :=
  List.toFinset_eq_of_perm _ _ (List.mergeSort_perm _ _)

variable (unit : Block s)

theorem mem_keys_iff {q : Row s} :
    q ∈ (ofBlock unit).keys ↔ ∃ b ∈ unit.rows, ∃ a ∈ unit.rows, b * a⁻¹ = q := by
  rw [← toFinset_falseHeads, List.mem_toFinset, mem_falseHeads, clash_comm, clash_iff]
  refine exists_congr fun b => and_congr_right fun _ => exists_congr fun a => ?_
  rw [Row.rounds_eq_one, one_mul, mul_inv_eq_iff_eq_mul]

/-- The keys are the quotients of the rows, whichever stands where and how often. -/
theorem keys_ofBlock : (ofBlock unit).keys = unit.rows.toFinset / unit.rows.toFinset := by
  ext q
  rw [mem_keys_iff, Finset.mem_div]
  simp only [List.mem_toFinset, div_eq_mul_inv]

/-- Units whose rows differ by a factor on the right have the same keys. -/
theorem keys_eq_of_image_mul_right {unit other : Block s} {x : Row s}
    (h : other.rows.toFinset = unit.rows.toFinset.image (· * x)) :
    (ofBlock other).keys = (ofBlock unit).keys := by
  rw [keys_ofBlock, keys_ofBlock, h, div_image_mul_right]

theorem size_ofBlock :
    (ofBlock unit).size = (unit.rows.toFinset / unit.rows.toFinset).card := by
  rw [← card_keys, keys_ofBlock]

/-- **The size of a table is a matter of the different rows of its unit.** The keys of the table,
which are the false heads and as many as the table is large, are the quotients of two rows of the
unit. They are the same for units that have the same rows, in whatever order, however often and
with whatever leads, and also if the rows of one are those of the other multiplied from the right
by one row. If there are `d` different rows, one at least, then the size is at least `d` and at most
`d * (d - 1) + 1`; without rows the table is empty. -/
theorem size_by_different_rows (unit : Block s) :
    let table := ofBlock unit
    let d := unit.rows.toFinset.card
    (table.falseHeads.toFinset = table.keys ∧ table.keys.card = table.size) ∧
    (∀ q, q ∈ table.keys ↔ ∃ b ∈ unit.rows, ∃ a ∈ unit.rows, b * a⁻¹ = q) ∧
    (∀ other : Block s, other.rows.toFinset = unit.rows.toFinset →
      (ofBlock other).keys = table.keys) ∧
    (∀ (other : Block s) (x : Row s), other.rows.toFinset = unit.rows.toFinset.image (· * x) →
      (ofBlock other).keys = table.keys) ∧
    (0 < d → d ≤ table.size ∧ table.size ≤ d * (d - 1) + 1) ∧
    (d = 0 → table.size = 0) := by
  intro table d
  refine ⟨⟨table.toFinset_falseHeads, table.card_keys⟩, fun q => mem_keys_iff unit,
    fun other same => ?_, fun other x => keys_eq_of_image_mul_right, fun _ => ?_, fun none => ?_⟩
  · rw [keys_ofBlock, same, ← keys_ofBlock]
  · rw [size_ofBlock]
    exact ⟨Finset.card_le_card_div_self, card_div_self_le _⟩
  · rw [size_ofBlock, Finset.card_eq_zero.1 none, Finset.empty_div, Finset.card_empty]

/-- Three bells: rounds, a row that goes round, and rounds again. The keys are those of the two rows
in the other order, and of the two rows read backwards. Without rows there are none. -/
theorem size_by_different_rows_three_bells :
    let s : Stage := ⟨3, by decide, by decide⟩
    let r : Row s := .rounds s
    let c : Row s := .ofFn (· + 1) (by decide)
    let x : Row s := .backrounds s
    let unit : Block s := ⟨[r, c, r], c, [1], by decide, by decide⟩
    let other : Block s := ⟨[c, r], r, [], by decide, by decide⟩
    let moved : Block s := ⟨[r * x, c * x], x, [], by decide, by decide⟩
    let empty : Block s := ⟨[], r, [], by decide, by decide⟩
    (unit.rows.toFinset.card = 2 ∧ 2 ≤ (ofBlock unit).size ∧ (ofBlock unit).size ≤ 3) ∧
      c⁻¹ ∈ (ofBlock unit).keys ∧
      (other.rows.toFinset = unit.rows.toFinset ∧ (ofBlock other).keys = (ofBlock unit).keys) ∧
      (moved.rows.toFinset = unit.rows.toFinset.image (· * x) ∧
        (ofBlock moved).keys = (ofBlock unit).keys) ∧
      (empty.rows.toFinset.card = 0 ∧ (ofBlock empty).size = 0) := by
  intro s r c x unit other moved empty
  have two : unit.rows.toFinset.card = 2 := by decide
  have same : other.rows.toFinset = unit.rows.toFinset := by decide
  have right : moved.rows.toFinset = unit.rows.toFinset.image (· * x) := by decide
  obtain ⟨-, quotients, order, factor, bounds, -⟩ := size_by_different_rows unit
  have least := bounds (two ▸ Nat.zero_lt_two)
  rw [two] at least
  exact ⟨⟨two, least⟩, (quotients _).2 ⟨r, by decide, c, by decide, by decide⟩,
    ⟨same, order other same⟩, ⟨right, factor moved x right⟩,
    rfl, (size_by_different_rows empty).2.2.2.2.2 rfl⟩

/-- Both bounds are met by two rows at three bells: with backrounds rounds has two keys, and with a
row that goes round three. -/
example :
    let s : Stage := ⟨3, by decide, by decide⟩
    let r : Row s := .rounds s
    let unit := fun x : Row s => (⟨[r, x], r, [], by simp, by simp⟩ : Block s)
    (ofBlock (unit (.backrounds s))).size = 2 ∧
      (ofBlock (unit (.ofFn (· + 1) (by decide)))).size = 3 := by
  intro s r unit
  rw [size_ofBlock, size_ofBlock]
  decide

end QuotientTable

end Campanology
