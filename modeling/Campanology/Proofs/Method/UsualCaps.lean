import Campanology.Proofs.Method.PlainCourse
import Campanology.Proofs.Row.Orders

/-!
# Courses within the usual caps

The plain course is given up when it would have too many rows or too many leads. No course has as
many as 100000 leads (`Method.leadsPerCourse_lt`), since no row has to be repeated so often to reach
rounds. So a cap of so many leads is never what a course is given up for: it closes if it has no
more rows than are allowed (`Method.exists_plainCourse_iff`), and if it has more, the budget is what
the rows leave (`Method.plainCourse_eq_error_iff`).
-/

namespace Campanology.Method

variable (m : Method)

theorem leadsPerCourse_lt : m.leadsPerCourse < 100000 := m.leadHead.order_lt

/-- A course with too many rows has more leads than have no more rows than are allowed. -/
theorem div_leadLength_lt {maxRows : ℕ} (rows : maxRows < m.courseLength) :
    maxRows / m.leadLength < m.leadsPerCourse := Nat.div_lt_of_lt_mul rows

section Caps

variable {c : Option Settings} (leads : 100000 ≤ (c.getD .standard).maxLeads)

include leads

/-- A course is within the budget if its rows are allowed. -/
theorem leadsPerCourse_le_iff :
    m.leadsPerCourse ≤ min (c.getD .standard).maxLeads
      ((c.getD .standard).maxRows / m.leadLength) ↔
    m.courseLength ≤ (c.getD .standard).maxRows := by
  have pos : 0 < m.leadLength := List.length_pos_iff.2 m.changes_ne_nil
  have few : m.leadsPerCourse ≤ (c.getD .standard).maxLeads := m.leadsPerCourse_lt.le.trans leads
  rw [le_min_iff, and_iff_right few, Nat.le_div_iff_mul_le pos, Nat.mul_comm]
  rfl

theorem exists_plainCourse_iff :
    (∃ course, m.plainCourse c = .ok course) ↔ m.courseLength ≤ (c.getD .standard).maxRows := by
  rw [← m.leadsPerCourse_le_iff leads]
  constructor
  · rintro ⟨course, closes⟩
    by_contra short
    rw [m.plainCourse_of_lt c (Nat.lt_of_not_le short)] at closes
    cases closes
  · intro enough
    exact ⟨_, m.plainCourse_of_le c enough⟩

/-- A course with too many rows is given up with the leads that have no more rows than are
allowed. -/
theorem plainCourse_eq_error_iff {u : Unclosed m.stage} :
    let budget := (c.getD .standard).maxRows / m.leadLength
    m.plainCourse c = .error u ↔ (c.getD .standard).maxRows < m.courseLength ∧
      u = ⟨budget * m.leadLength, budget, m.leadHead.pow budget⟩ := by
  intro budget
  by_cases rows : (c.getD .standard).maxRows < m.courseLength
  · -- the other cap is above the leads of the course, and so it is the rows that give the budget
    have fewer : budget < m.leadsPerCourse := m.div_leadLength_lt rows
    have byRows : min (c.getD .standard).maxLeads budget = budget := by
      have := m.leadsPerCourse_lt
      omega
    have givenUp : m.plainCourse c =
        .error ⟨budget * m.leadLength, budget, m.leadHead.pow budget⟩ := by
      rw [m.plainCourse_of_lt c (byRows.trans_lt fewer), byRows, Row.pow_natCast]
    rw [givenUp, Except.error.injEq, and_iff_right rows, eq_comm]
  · obtain ⟨course, closes⟩ := (m.exists_plainCourse_iff leads).2 (Nat.le_of_not_lt rows)
    simp [closes, rows]

end Caps

/-- **Within the usual caps a course is given up for its rows alone.** No course has as many as
100000 leads. Within the usual caps it is given up just if it has more than 1000000 rows, and then
with as many leads as have no more rows than that, which are fewer than 100000. With any other cap
on the rows, if the leads may be 100000 or more, it closes just if its rows are allowed. -/
theorem usual_course_refused_by_rows (m : Method) :
    let leads := 1000000 / m.leadLength
    m.leadsPerCourse < 100000 ∧
    ((∃ u, m.plainCourse none = .error u) ↔ 1000000 < m.courseLength) ∧
    ((∃ course, m.plainCourse none = .ok course) ↔ m.courseLength ≤ 1000000) ∧
    (∀ u, m.plainCourse none = .error u ↔ 1000000 < m.courseLength ∧ leads < 100000 ∧
      u = ⟨leads * m.leadLength, leads, m.leadHead.pow leads⟩) ∧
    ∀ c : Settings, 100000 ≤ c.maxLeads →
      ((∃ course, m.plainCourse (some c) = .ok course) ↔ m.courseLength ≤ c.maxRows) := by
  intro leads
  have few := m.leadsPerCourse_lt
  have refused : ∀ u, m.plainCourse none = .error u ↔ 1000000 < m.courseLength ∧
      u = ⟨leads * m.leadLength, leads, m.leadHead.pow leads⟩ := fun u =>
    m.plainCourse_eq_error_iff le_rfl
  refine ⟨few, ⟨?_, ?_⟩, m.exists_plainCourse_iff le_rfl, fun u => ?_, fun c allowed => ?_⟩
  · rintro ⟨u, givenUp⟩
    exact ((refused u).1 givenUp).1
  · intro rows
    exact ⟨_, (refused _).2 ⟨rows, rfl⟩⟩
  · rw [refused u]
    refine and_congr_right fun rows => ?_
    rw [and_iff_right ((m.div_leadLength_lt rows).trans few)]
  · exact m.exists_plainCourse_iff (c := some c) allowed

/-- Plain hunt at three bells has a course of six rows, which six rows allow and five do not. -/
theorem usual_course_refused_by_rows_three_bells :
    let s : Stage := ⟨3, by decide, by decide⟩
    let m : Method :=
      ⟨"Plain Hunt", s, [.cross s, .ofPaired s (· = 0) (by decide)], {}, none, by decide⟩
    let six : Settings := .capped 6 100000 (by decide) (by decide)
    let five : Settings := .capped 5 100000 (by decide) (by decide)
    m.courseLength = 6 ∧ 100000 ≤ six.maxLeads ∧ 100000 ≤ five.maxLeads ∧
      (∃ course, m.plainCourse (some six) = .ok course) ∧
      ¬ ∃ course, m.plainCourse (some five) = .ok course := by
  intro s m six five
  have six_rows : m.courseLength = 6 := by decide
  obtain ⟨-, -, -, -, capped⟩ := usual_course_refused_by_rows m
  refine ⟨six_rows, le_rfl, le_rfl, (capped six le_rfl).2 six_rows.le, ?_⟩
  rw [capped five le_rfl, six_rows]
  decide

end Campanology.Method
