import Mathlib.Algebra.Group.Subgroup.Defs
import Campanology.Proofs.Method.CourseUnits

/-!
# What a course may be called by

A block may have the same rows when it is begun from another row; the rows of which this is so are a
group (`Block.symmetries`). To begin a copy of the block from `g` or from `g` times such a row makes
no difference to which rows the copy has, and so none to whether it shares one with another copy
(`Block.shares_mul_iff`).

The rows of a plain course are those of its first lead, begun from the powers of the lead head
(`Method.mem_rows_course`). As the course closes, these are all the powers there are, so that the
lead head is a symmetry of the course (`Method.leadHead_mem_symmetries`), and its powers are, the
negative ones too. Hence a course may be called by any of its lead heads
(`Method.courses_called_by_any_lead_head`).
-/

namespace Campanology

variable {s : Stage}

/-! ## Symmetries of a block -/

namespace Block

/-- The rows from which a block has the rows that it has from rounds, if in another order. -/
def symmetries (unit : Block s) : Subgroup (Row s) where
  carrier := {a | ∀ r, a * r ∈ unit.rows ↔ r ∈ unit.rows}
  mul_mem' {a b} ha hb r := by rw [mul_assoc, ha, hb]
  one_mem' r := by rw [one_mul]
  inv_mem' {a} ha r := by rw [← ha, mul_inv_cancel_left]

theorem mem_symmetries {unit : Block s} {a : Row s} :
    a ∈ unit.symmetries ↔ ∀ r, a * r ∈ unit.rows ↔ r ∈ unit.rows := Iff.rfl

variable {unit : Block s} {a b : Row s}

/-- Copies share a row whichever symmetries their heads are multiplied by. -/
theorem shares_mul_iff (ha : a ∈ unit.symmetries) (hb : b ∈ unit.symmetries) (g h : Row s) :
    unit.Shares (g * a) (h * b) ↔ unit.Shares g h := by
  constructor
  · rintro ⟨x, hx, y, hy, e⟩
    refine ⟨a * x, (ha x).2 hx, b * y, (hb y).2 hy, ?_⟩
    rw [← mul_assoc, ← mul_assoc, e]
  · rintro ⟨x, hx, y, hy, e⟩
    refine ⟨a⁻¹ * x, ?_, b⁻¹ * y, ?_, ?_⟩
    · exact (inv_mem ha x).2 hx
    · exact (inv_mem hb y).2 hy
    · rw [mul_assoc, mul_inv_cancel_left, mul_assoc, mul_inv_cancel_left, e]

/-- The verdict on copies is the same whichever symmetries their heads are multiplied by. -/
theorem isTrue_proveCopies_mul {α : Type} {called : List α} (head sym : α → Row s)
    (h : ∀ x ∈ called, sym x ∈ unit.symmetries) (stop : Bool) :
    (unit.proveCopies (called.map fun x => head x * sym x) stop).isTrue =
      (unit.proveCopies (called.map head) stop).isTrue := by
  have apart : (called.map fun x => head x * sym x).Pairwise (fun g h => ¬ unit.Shares g h) ↔
      (called.map head).Pairwise fun g h => ¬ unit.Shares g h := by
    rw [List.pairwise_map, List.pairwise_map]
    refine List.Pairwise.iff_of_mem fun {x y} hx hy => ?_
    rw [shares_mul_iff (h x hx) (h y hy)]
  rw [Bool.eq_iff_iff, proveCopies, proveCopies, isTrue_reportRepeats, isTrue_reportRepeats,
    nodup_copies, nodup_copies, Apart, Apart, apart]
  simp

end Block

/-! ## The course and its lead heads -/

namespace Method

variable (m : Method) {c : Option Settings} {course : Block m.stage}

/-- The rows of a course are those of the first lead from all powers of the lead head. -/
theorem mem_rows_course (closes : m.plainCourse c = .ok course) {r : Row m.stage} :
    r ∈ course.rows ↔
      ∃ k : ℕ, ∃ x ∈ (m.leadFrom (Row.rounds m.stage)).rows, m.leadHead ^ k * x = r := by
  rw [m.eq_ringingLeads_of_plainCourse closes, rows_ringingLeads_eq_copies _ m.changes_ne_nil,
    ← leadHead_eq_product, Row.rounds_eq_one]
  simp only [Block.copies, one_mul, List.mem_flatMap, List.mem_map, List.mem_range,
    exists_exists_and_eq_and]
  constructor
  · rintro ⟨k, -, x, hx, rfl⟩
    exact ⟨k, x, hx, rfl⟩
  · -- a power beyond the order is one below it
    rintro ⟨k, x, hx, rfl⟩
    refine ⟨k % m.leadHead.order, Nat.mod_lt _ m.leadHead.order_pos, x, hx, ?_⟩
    rw [Row.order_eq_orderOf, pow_mod_orderOf]

/-- A course that closes has the same rows when it is begun with its second lead. -/
theorem leadHead_mem_symmetries (closes : m.plainCourse c = .ok course) :
    m.leadHead ∈ course.symmetries := by
  rw [Block.mem_symmetries]
  intro r
  rw [m.mem_rows_course closes, m.mem_rows_course closes]
  constructor
  · -- the lead before the first is the last one
    rintro ⟨k, x, hx, e⟩
    refine ⟨k + (m.leadHead.order - 1), x, hx, ?_⟩
    have back : m.leadHead ^ (m.leadHead.order - 1) * m.leadHead = 1 := by
      rw [pow_sub_one_mul m.leadHead.order_pos.ne', Row.order_eq_orderOf, pow_orderOf_eq_one]
    rw [add_comm, pow_add, mul_assoc, e, ← mul_assoc, back, one_mul]
  · rintro ⟨k, x, hx, rfl⟩
    exact ⟨k + 1, x, hx, by rw [pow_succ', mul_assoc]⟩

theorem pow_leadHead_mem_symmetries (closes : m.plainCourse c = .ok course) (k : ℤ) :
    m.leadHead.pow k ∈ course.symmetries := by
  rw [Row.pow_eq_zpow]
  exact zpow_mem (m.leadHead_mem_symmetries closes) k

/-- **A course may be called by any of its lead heads.** If the plain course of a method closes,
then whether two of its courses share a row, according to the table of the course, does not depend
on the powers of the lead head by which their heads are multiplied; and neither does the verdict on
courses, by the table or row by row, if each head is multiplied by a power of its own. -/
theorem courses_called_by_any_lead_head (m : Method) (c : Option Settings)
    {course : Block m.stage} (closes : m.unit .course c = .ok course) :
    let table := QuotientTable.ofBlock course
    (∀ (g h : Row m.stage) (i j : ℤ),
      table.clashAny (.of g) (.of h) = .ok (table.clash g h) ∧
      table.clashAny (.of (g * m.leadHead.pow i)) (.of (h * m.leadHead.pow j)) =
        .ok (table.clash g h)) ∧
    ∀ (called : List (Row m.stage × ℤ)) (stop : Bool),
      let heads := called.map fun x => Staged.of x.1
      let others := called.map fun x => Staged.of (x.1 * m.leadHead.pow x.2)
      ∃ lookup lookup' direct direct',
        table.proveHeads heads stop = .ok lookup ∧
        table.proveHeads others stop = .ok lookup' ∧ lookup'.isTrue = lookup.isTrue ∧
        course.proveHeads heads stop = .ok direct ∧
        course.proveHeads others stop = .ok direct' ∧ direct'.isTrue = direct.isTrue := by
  intro table
  have symm := m.pow_leadHead_mem_symmetries closes
  refine ⟨fun g h i j => ⟨table.clashAny_of g h, ?_⟩, fun called stop => ?_⟩
  · have same : table.clash (g * m.leadHead.pow i) (h * m.leadHead.pow j) = table.clash g h := by
      rw [Bool.eq_iff_iff, QuotientTable.clash_iff, QuotientTable.clash_iff,
        Block.shares_mul_iff (symm i) (symm j)]
    rw [table.clashAny_of, same]
  · intro heads others
    have heads_eq : heads = (called.map Prod.fst).map .of := by simp [heads]
    have others_eq : others = (called.map fun x => x.1 * m.leadHead.pow x.2).map .of := by
      simp [others]
    have direct := Block.isTrue_proveCopies_mul Prod.fst (fun x => m.leadHead.pow x.2)
      (fun x (_ : x ∈ called) => symm x.2) stop
    have lookup := direct
    rw [← isTrue_prove_eq_proveCopies course _ stop, ← isTrue_prove_eq_proveCopies course _ stop]
      at lookup
    rw [heads_eq, others_eq]
    exact ⟨_, _, _, _, table.proveHeads_map_of _ stop, table.proveHeads_map_of _ stop, lookup,
      course.proveHeads_map_of _ stop, course.proveHeads_map_of _ stop, direct⟩

/-- The course of a single cross at three bells has two rows. Called by other lead heads, the
courses of rounds and of backrounds share no row still, and the course of rounds is still that of
its lead head; the verdicts are those too, by the table and row by row. -/
theorem courses_called_by_any_lead_head_three_bells :
    let s : Stage := ⟨3, by decide, by decide⟩
    let m : Method := ⟨"Cross", s, [.cross s], {}, none, by decide⟩
    let first := Staged.of (Row.rounds s * m.leadHead.pow (-3))
    let other := Staged.of (Row.backrounds s * m.leadHead.pow 4)
    let again := Staged.of (m.leadHead * m.leadHead.pow 6)
    ∃ course, m.unit .course none = .ok course ∧
      (QuotientTable.ofBlock course).clashAny first other = .ok false ∧
      (QuotientTable.ofBlock course).clashAny first again = .ok true ∧
      (∃ lookup' direct', lookup'.isTrue = true ∧ direct'.isTrue = true ∧
        (QuotientTable.ofBlock course).proveHeads [first, other] true = .ok lookup' ∧
        course.proveHeads [first, other] true = .ok direct') ∧
      ∃ lookup' direct', lookup'.isTrue = false ∧ direct'.isTrue = false ∧
        (QuotientTable.ofBlock course).proveHeads [first, again] true = .ok lookup' ∧
        course.proveHeads [first, again] true = .ok direct' := by
  intro s m first other again
  let course : Block s := ringingLeads (Row.rounds s) m.changes m.leadHead.order
  have enough : m.leadHead.order ≤ min defaultMaxLeads (defaultMaxRows / m.leadLength) := by decide
  have closes : m.unit .course none = .ok course := m.plainCourse_of_le none enough
  have different : (course.copies [.rounds s, .backrounds s]).Nodup := by decide +kernel
  have repeats : ¬ (course.copies [.rounds s, m.leadHead]).Nodup := by decide +kernel
  obtain ⟨pairs, lists⟩ := m.courses_called_by_any_lead_head none closes
  refine ⟨course, closes, ?_, ?_, ?_, ?_⟩
  · rw [(pairs (.rounds s) (.backrounds s) (-3) 4).2, Except.ok.injEq, Bool.eq_false_iff, ne_eq,
      QuotientTable.clash_iff]
    decide +kernel
  · rw [(pairs (.rounds s) m.leadHead (-3) 6).2, Except.ok.injEq, QuotientTable.clash_iff]
    decide +kernel
  · obtain ⟨lookup, lookup', direct, direct', looked, looked', same, proved, proved', same'⟩ :=
      lists [(.rounds s, -3), (.backrounds s, 4)] true
    have verdict := isTrue_of_proveHeads [.rounds s, .backrounds s] proved looked
    have told : lookup'.isTrue = true := same.trans (verdict.2.2 different)
    have told' : direct'.isTrue = true := same'.trans (verdict.1.2 different)
    exact ⟨lookup', direct', told, told', looked', proved'⟩
  · obtain ⟨lookup, lookup', direct, direct', looked, looked', same, proved, proved', same'⟩ :=
      lists [(.rounds s, -3), (m.leadHead, 6)] true
    have verdict := isTrue_of_proveHeads [.rounds s, m.leadHead] proved looked
    have told : lookup'.isTrue = false :=
      same.trans (Bool.eq_false_iff.2 (mt verdict.2.1 repeats))
    have told' : direct'.isTrue = false :=
      same'.trans (Bool.eq_false_iff.2 (mt verdict.1.1 repeats))
    exact ⟨lookup', direct', told, told', looked', proved'⟩

end Method

end Campanology
