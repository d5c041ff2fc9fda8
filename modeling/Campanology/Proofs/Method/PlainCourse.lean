import Campanology.Method.Basic
import Campanology.Proofs.Ringing.Leads
import Campanology.Proofs.Row.Cycles

/-!
# When and where the plain course closes

The plain course is rung lead by lead until a lead leads to rounds. After `k` leads the row is the
`k`-th power of the lead head, so that the course closes after as many leads as the order of the
lead head, and not before (`plainCourse_of_le`); its lead heads are the different powers. If the
settings do not allow so many leads, then all that they allow are rung in vain
(`plainCourse_of_lt`).
-/

namespace Campanology

open Change

/-! ## Caps -/

namespace Settings

theorem rule_toRounds (c : Settings) : c.toRounds.rule = .untilRounds := by
  rw [toRounds]
  split
  · assumption
  · rfl

theorem leadBudget_toRounds (c : Settings) (length : ℕ) :
    c.toRounds.leadBudget length = min c.maxLeads (c.maxRows / length) := by
  rw [toRounds]
  split <;> rfl

end Settings

namespace Method

variable (m : Method)

theorem leadHead_eq_product : m.leadHead = product m.changes := by
  rw [leadHead, foldl_next, Row.rounds_eq_one, one_mul]

theorem ringing_toRounds (c : Settings) (seed : Row m.stage) :
    ringing seed m.changes c.toRounds =
      ((Touch.start seed).ringToRounds m.changes
        (min c.maxLeads (c.maxRows / m.leadLength))).map Touch.block := by
  rw [ringing, Settings.rule_toRounds]
  exact congrArg (fun k => ((Touch.start seed).ringToRounds m.changes k).map Touch.block)
    (c.leadBudget_toRounds m.leadLength)

/-! ## The course -/

/-- The rows to which leads from rounds lead are the powers of the lead head. -/
theorem rounds_mul_product_pow (count : ℕ) :
    Row.rounds m.stage * product m.changes ^ count = m.leadHead ^ count := by
  rw [leadHead_eq_product]
  exact one_mul _

/-- No number of leads below the order of the lead head leads back to rounds. -/
theorem leadHead_pow_ne_one {k : ℕ} (pos : 0 < k) (lt : k < m.leadHead.order) :
    m.leadHead ^ k ≠ 1 := by
  rw [Row.order_eq_orderOf] at lt
  exact pow_ne_one_of_lt_orderOf (Nat.ne_of_gt pos) lt

/-- A course within the caps consists of as many leads as the order of the lead head. -/
theorem plainCourse_of_le (c : Option Settings)
    (enough : m.leadHead.order ≤ min (c.getD .standard).maxLeads
      ((c.getD .standard).maxRows / m.leadLength)) :
    m.plainCourse c =
      .ok (ringingLeads (Row.rounds m.stage) m.changes m.leadHead.order) := by
  have closes : m.leadHead ^ m.leadHead.order = 1 := by
    rw [Row.order_eq_orderOf, pow_orderOf_eq_one]
  rw [plainCourse, ringing_toRounds,
    Touch.ringToRounds_start_of_first m.changes_ne_nil m.leadHead.order_pos enough]
  · rfl
  · rw [rounds_mul_product_pow, closes]
  · intro k pos lt
    rw [rounds_mul_product_pow]
    exact m.leadHead_pow_ne_one pos lt

/-- A course beyond the caps is rung up to the caps, and then given up. -/
theorem plainCourse_of_lt (c : Option Settings)
    (short : min (c.getD .standard).maxLeads ((c.getD .standard).maxRows / m.leadLength) <
      m.leadHead.order) :
    let budget := min (c.getD .standard).maxLeads ((c.getD .standard).maxRows / m.leadLength)
    m.plainCourse c = .error ⟨budget * m.leadLength, budget, m.leadHead ^ budget⟩ := by
  intro budget
  rw [plainCourse, ringing_toRounds, Touch.ringToRounds_start_of_never m.changes_ne_nil,
    rounds_mul_product_pow]
  · rfl
  · intro k pos le
    rw [rounds_mul_product_pow]
    exact m.leadHead_pow_ne_one pos (le.trans_lt short)

/-- The lead heads of a course are different, as powers of the lead head below its order. -/
theorem nodup_leadHead_pow : ((List.range m.leadHead.order).map (m.leadHead ^ ·)).Nodup := by
  rw [List.nodup_map_iff_inj_on List.nodup_range]
  intro i hi k hk e
  rw [Row.order_eq_orderOf] at hi hk
  exact pow_injOn_Iio_orderOf (List.mem_range.1 hi) (List.mem_range.1 hk) e

/-- **The plain course closes after as many leads as the order of the lead head**, if the settings
allow so many, and otherwise is given up with the last lead that they allow. -/
theorem plainCourse_closes_at_order (m : Method) (c : Option Settings) :
    let caps := c.getD .standard
    let budget := min caps.maxLeads (caps.maxRows / m.leadLength)
    m.leadsPerCourse = m.leadHead.order ∧ m.courseLength = m.leadLength * m.leadHead.order ∧
    (m.leadsPerCourse ≤ budget → ∃ course, m.plainCourse c = .ok course ∧
      course.rows.length = m.courseLength ∧ course.leadCount = m.leadsPerCourse ∧
      course.leadEnds = (List.range m.leadsPerCourse).map (fun i => (i + 1) * m.leadLength) ∧
      course.leftover = Row.rounds m.stage ∧
      ∃ heads, course.leadHeads = heads ++ [course.leftover] ∧
        heads.length = m.leadsPerCourse ∧ heads.Nodup) ∧
    (budget < m.leadsPerCourse →
      m.plainCourse c = .error ⟨budget * m.leadLength, budget, m.leadHead.pow budget⟩) := by
  refine ⟨rfl, rfl, fun enough => ?_, fun short => ?_⟩
  · have ne := m.changes_ne_nil
    refine ⟨_, m.plainCourse_of_le c enough, ?_, leadCount_ringingLeads _ ne _,
      leadEnds_ringingLeads _ ne _, ?_, _, leadHeads_ringingLeads _ ne _, ?_, ?_⟩
    · rw [length_rows_ringingLeads _ ne, Nat.mul_comm]
      rfl
    · rw [leftover_ringingLeads _ ne, ← leadHead_eq_product, Row.order_eq_orderOf,
        pow_orderOf_eq_one, mul_one]
    · simp [leadsPerCourse]
    · simpa [← leadHead_eq_product, Row.rounds_eq_one] using m.nodup_leadHead_pow
  · rw [Row.pow_natCast]
    exact m.plainCourse_of_lt c short

/-- Plain hunt at three bells: its course of three leads closes within the usual caps, and does not
within five rows, which hold only two leads. -/
theorem plainCourse_closes_three_bells :
    let s : Stage := ⟨3, by decide, by decide⟩
    let m : Method :=
      ⟨"Plain Hunt", s, [.cross s, .ofPaired s (· = 0) (by decide)], {}, none, by decide⟩
    let tight : Settings := .capped 5 9 (by decide) (by decide)
    (3 ≤ min defaultMaxLeads (defaultMaxRows / 2) ∧
      ∃ course, m.plainCourse none = .ok course ∧ course.rows.length = 6 ∧ course.leadCount = 3 ∧
        course.leadEnds = [2, 4, 6] ∧ course.leftover = Row.rounds s ∧
        ∃ heads, course.leadHeads = heads ++ [course.leftover] ∧ heads.length = 3 ∧ heads.Nodup) ∧
    min tight.maxLeads (tight.maxRows / 2) < 3 ∧
      m.plainCourse (some tight) = .error ⟨4, 2, m.leadHead.pow 2⟩ := by
  intro s m tight
  have order : m.leadsPerCourse = 3 := by decide
  have enough : 3 ≤ min defaultMaxLeads (defaultMaxRows / 2) := by decide
  have short : min tight.maxLeads (tight.maxRows / 2) < 3 := by decide
  obtain ⟨-, -, closes, -⟩ := plainCourse_closes_at_order m none
  obtain ⟨-, -, -, fails⟩ := plainCourse_closes_at_order m (some tight)
  have budget : min ((some tight).getD .standard).maxLeads
      (((some tight).getD .standard).maxRows / m.leadLength) = 2 := by decide
  have givenUp := fails (order ▸ short)
  rw [budget] at givenUp
  obtain ⟨course, ok, rows, leads, ends, back, heads, split, count, nodup⟩ :=
    closes (order ▸ enough)
  rw [order] at leads ends count
  have length_eq : course.rows.length = 6 := rows.trans (by decide)
  exact ⟨⟨enough, course, ok, length_eq, leads, ends, back, heads, split, count, nodup⟩, short,
    givenUp⟩

end Method

end Campanology
