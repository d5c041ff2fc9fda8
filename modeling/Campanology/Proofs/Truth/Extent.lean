import Mathlib.Data.Fintype.Perm
import Campanology.Proofs.Row.Sign
import Campanology.Proofs.Truth.Agreement
import Campanology.Proofs.Method.CourseUnits
import Campanology.Proofs.Refusals

/-!
# No truth beyond the extent

The rows of a stage are the permutations of its places (`Row.equivPerm`), and so there are as many
of them as the extent has rows (`Row.card_eq_extent`). Rows of which none occurs twice are no more
than that. A report is true exactly if no row occurs twice, row by row as well as by lookup in the
table of the unit, and so true ringing is never longer than the extent
(`length_le_extent_of_isTrue`); and true ringing of that length rings every row
(`Block.mem_rows_of_length_eq_extent`).
-/

namespace Campanology

open Nat

variable {s : Stage}

/-! ## The number of rows -/

namespace Stage

theorem orders_eq_factorial (n : ℕ) : orders n = n ! := by
  induction n with
  | zero => rfl
  | succ n ih => rw [orders, ih, Nat.factorial_succ]

theorem extent_eq_factorial (s : Stage) : s.extent = s.bells ! :=
  orders_eq_factorial s.bells

end Stage

namespace Row

/-- The rows of a stage are the permutations of its places. -/
def equivPerm : Row s ≃ Equiv.Perm (Fin s.bells) where
  toFun := perm
  invFun σ := ofFn σ fun _ _ same => σ.injective same
  left_inv r := by ext p; simp
  right_inv σ := by ext p; simp

instance : Fintype (Row s) := Fintype.ofEquiv _ equivPerm.symm

/-- The extent is the number of rows. -/
theorem card_eq_extent : Fintype.card (Row s) = s.extent := by
  rw [Fintype.card_congr equivPerm, Fintype.card_perm, Fintype.card_fin, Stage.extent_eq_factorial]

theorem length_le_extent {rows : List (Row s)} (nodup : rows.Nodup) : rows.length ≤ s.extent :=
  card_eq_extent (s := s) ▸ nodup.length_le_card

end Row

/-! ## True ringing -/

namespace Block

theorem isTrue_prove {b : Block s} {stop : Bool} : (b.prove stop).isTrue = true ↔ b.rows.Nodup :=
  isTrue_reportRepeats ..

theorem length_mul_length_le_extent {unit : Block s} {heads : List (Row s)}
    (nodup : (unit.copies heads).Nodup) : heads.length * unit.rows.length ≤ s.extent :=
  unit.length_copies heads ▸ Row.length_le_extent nodup

/-- Heads that are proved row by row are rows of the stage. -/
theorem proveHeads_eq_ok_iff {unit : Block s} {heads : List (Staged Row)} {stop : Bool}
    {r : Report (Row s)} : unit.proveHeads heads stop = .ok r ↔
      ∃ rows : List (Row s), heads = rows.map .of ∧ unit.proveCopies rows stop = r := by
  rw [proveHeads]
  simp only [bind_eq_ok_iff, requireAll, mapM_require_eq_ok_iff, pure, Except.pure,
    Except.ok.injEq]

/-- True ringing as long as the extent rings every row. -/
theorem mem_rows_of_length_eq_extent {b : Block s} {stop : Bool} (h : (b.prove stop).isTrue = true)
    (length_eq : b.rows.length = s.extent) (r : Row s) : r ∈ b.rows := by
  have all : b.rows.toFinset = Finset.univ := by
    rw [← Finset.card_eq_iff_eq_univ, List.toFinset_card_of_nodup (isTrue_prove.1 h), length_eq,
      Row.card_eq_extent]
  exact List.mem_toFinset.1 (all ▸ Finset.mem_univ r)

end Block

namespace QuotientTable

/-- Heads that are looked up are rows of the stage. -/
theorem proveHeads_eq_ok_iff {t : QuotientTable s} {heads : List (Staged Row)} {stop : Bool}
    {r : Report (Row s)} : t.proveHeads heads stop = .ok r ↔
      ∃ rows : List (Row s), heads = rows.map .of ∧ t.prove rows stop = r := by
  rw [proveHeads]
  simp only [bind_eq_ok_iff, requireAll, mapM_require_eq_ok_iff, pure, Except.pure,
    Except.ok.injEq]

end QuotientTable

namespace Method

/-- A plain course that closes has as many rows as the length of the course. -/
theorem length_plainCourse {m : Method} {c : Option Settings} {course : Block m.stage}
    (closes : m.plainCourse c = .ok course) : course.rows.length = m.courseLength := by
  rw [m.eq_ringingLeads_of_plainCourse closes, length_rows_ringingLeads _ m.changes_ne_nil,
    Nat.mul_comm]
  rfl

/-- A plain course is proved as its rows are. -/
theorem prove_eq_ok_iff {m : Method} {c : Option Settings} {stop : Bool}
    {r : Report (Row m.stage)} : m.prove c stop = .ok r ↔
      ∃ course : Block m.stage, m.plainCourse c = .ok course ∧ course.prove stop = r := by
  rw [prove]
  simp only [bind_eq_ok_iff, pure, Except.pure, Except.ok.injEq]

end Method

/-- **No truth beyond the extent**, which is the factorial of the number of bells and the number of
the rows of the stage:

* A block that is proved true has no more rows than the extent.
* Nor have the copies of a unit rung from heads, if these are proved true row by row, or by lookup
  in the table of the unit.
* A method whose plain course is proved true has no longer a course. -/
theorem length_le_extent_of_isTrue :
    (∀ s : Stage, s.extent = s.bells ! ∧ s.extent = Fintype.card (Row s)) ∧
    (∀ (s : Stage) (b : Block s) (stop : Bool), (b.prove stop).isTrue = true →
      b.rows.length ≤ s.extent) ∧
    (∀ (s : Stage) (unit : Block s) (heads : List (Staged Row)) (stop : Bool) (r : Report (Row s)),
      unit.proveHeads heads stop = .ok r ∨
          (QuotientTable.ofBlock unit).proveHeads heads stop = .ok r →
        r.isTrue = true → heads.length * unit.rows.length ≤ s.extent) ∧
    ∀ (m : Method) (c : Option Settings) (stop : Bool) (r : Report (Row m.stage)),
      m.prove c stop = .ok r → r.isTrue = true → m.courseLength ≤ m.stage.extent := by
  refine ⟨fun s => ⟨s.extent_eq_factorial, Row.card_eq_extent.symm⟩, ?_, ?_, ?_⟩
  · intro s b stop true
    exact Row.length_le_extent (Block.isTrue_prove.1 true)
  · rintro s unit heads stop r (proved | proved) true
    · obtain ⟨rows, rfl, rfl⟩ := Block.proveHeads_eq_ok_iff.1 proved
      rw [List.length_map]
      exact Block.length_mul_length_le_extent ((isTrue_reportRepeats ..).1 true)
    · obtain ⟨rows, rfl, rfl⟩ := QuotientTable.proveHeads_eq_ok_iff.1 proved
      rw [List.length_map]
      exact Block.length_mul_length_le_extent
        ((unit.nodup_copies rows).2 ((QuotientTable.isTrue_prove unit rows stop).1 true))
  · intro m c stop r proved true
    obtain ⟨course, closes, rfl⟩ := Method.prove_eq_ok_iff.1 proved
    rw [← Method.length_plainCourse closes]
    exact Row.length_le_extent (Block.isTrue_prove.1 true)

/-- Plain hunt at three bells: its lead is true, its three leads are by lookup and row by row, and
so is its course, which is as long as the extent. -/
theorem length_le_extent_of_isTrue_three_bells :
    let s : Stage := ⟨3, by decide, by decide⟩
    let m : Method :=
      ⟨"Plain Hunt", s, [.cross s, .ofPaired s (· = 0) (by decide)], {}, none, by decide⟩
    let unit : Block s := m.leadFrom (.rounds s)
    let heads : List (Row s) := [.rounds s, m.leadHead, m.leadHead * m.leadHead]
    s.extent = 3 ! ∧
    ((unit.prove true).isTrue = true ∧ unit.rows.length ≤ s.extent) ∧
    (∃ direct lookup, unit.proveHeads (heads.map .of) true = .ok direct ∧ direct.isTrue = true ∧
      (QuotientTable.ofBlock unit).proveHeads (heads.map .of) false = .ok lookup ∧
      lookup.isTrue = true ∧ (heads.map Staged.of).length * unit.rows.length ≤ s.extent) ∧
    ∃ r, m.prove none true = .ok r ∧ r.isTrue = true ∧
      m.courseLength = 6 ∧ m.courseLength ≤ m.stage.extent := by
  intro s m unit heads
  obtain ⟨extent, blocks, copies, courses⟩ := length_le_extent_of_isTrue
  have unitTrue : (unit.prove true).isTrue = true := Block.isTrue_prove.2 (by decide)
  have apart : (unit.copies heads).Nodup := by decide
  have direct : (unit.proveCopies heads true).isTrue = true := (isTrue_reportRepeats ..).2 apart
  have lookup : ((QuotientTable.ofBlock unit).prove heads false).isTrue = true :=
    (QuotientTable.isTrue_prove unit heads false).2 ((unit.nodup_copies heads).1 apart)
  have byRow := unit.proveHeads_map_of heads true
  have byLookup := (QuotientTable.ofBlock unit).proveHeads_map_of heads false
  have closes := m.plainCourse_of_le none (by decide)
  have proved : m.prove none true = .ok _ := Method.prove_eq_ok_iff.2 ⟨_, closes, rfl⟩
  have courseTrue : ((ringingLeads (Row.rounds s) m.changes m.leadHead.order).prove true).isTrue =
    true := Block.isTrue_prove.2 (by decide)
  exact ⟨(extent s).1, ⟨unitTrue, blocks s unit true unitTrue⟩,
    ⟨_, _, byRow, direct, byLookup, lookup,
      copies s unit (heads.map .of) true _ (.inl byRow) direct⟩,
    _, proved, courseTrue, by decide, courses m none true _ proved courseTrue⟩

end Campanology
