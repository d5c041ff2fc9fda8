import Campanology.Proofs.Method.CourseUnits

/-!
# The same ringing from another row

Changes multiply a row from the right, and to begin ringing from another row is to multiply all rows
from the left, so that it does not matter which is done first. This is shown step by step: a change
(`Touch.begunFrom_ring`) and the mark of a lead end (`Touch.begunFrom_closeLead`) may as well be
made before a touch is begun from elsewhere as after it, and so may a lead and any number of leads
(`Touch.begunFrom_ringLeads`).

So a number of rows or of leads rung from `h * seed` is the block that is rung from `seed`, begun
from `h` (`ringing_mul`). Ringing until rounds is another matter, since it looks at the rows; but a
course that closes consists of as many leads as the order of the lead head, and begun from `h` it is
these leads rung from `h` (`ringing_commutes_with_begunFrom`).
-/

namespace Campanology

open Change

variable {s : Stage}

/-! ## Blocks -/

namespace Block

theorem begunFrom_one (b : Block s) : b.begunFrom 1 = b := by
  simp [begunFrom]

theorem begunFrom_mul (g h : Row s) (b : Block s) :
    (b.begunFrom g).begunFrom h = b.begunFrom (h * g) := by
  simp [begunFrom, mul_assoc, Function.comp_def]

end Block

/-! ## Touches -/

namespace Touch

/-- The touch with each row multiplied by `head` from the left. -/
def begunFrom (head : Row s) (t : Touch s) : Touch s where
  rows := t.rows.map (head * ·)
  last := head * t.last
  leadEnds := t.leadEnds
  phase := t.phase
  ascending := t.ascending
  within := by simpa using t.within

variable (head : Row s) (t : Touch s)

theorem begunFrom_start (seed : Row s) : (start seed).begunFrom head = start (head * seed) := by
  simp [begunFrom, start]

theorem block_begunFrom : (t.begunFrom head).block = t.block.begunFrom head := by
  simp [begunFrom, block, Block.begunFrom]

theorem begunFrom_ring (c : Change s) : (t.ring c).begunFrom head = (t.begunFrom head).ring c := by
  simp [begunFrom, ring, Change.next, mul_assoc]

theorem begunFrom_ringAll (cs : List (Change s)) :
    (t.ringAll cs).begunFrom head = (t.begunFrom head).ringAll cs := by
  induction cs generalizing t with
  | nil => rfl
  | cons c cs ih => rw [ringAll_cons, ih, begunFrom_ring, ringAll_cons]

/-- A lead has as many rows from wherever it is begun, so that its end may be marked or may not. -/
theorem lastEnd_lt_begunFrom :
    (t.begunFrom head).lastEnd < (t.begunFrom head).rows.size ↔ t.lastEnd < t.rows.size := by
  have rows : (t.begunFrom head).rows.size = t.rows.size := Array.size_map ..
  rw [rows]
  rfl

theorem begunFrom_closeLead (h : t.lastEnd < t.rows.size) :
    (t.closeLead h).begunFrom head =
      (t.begunFrom head).closeLead ((t.lastEnd_lt_begunFrom head).2 h) := by
  simp [begunFrom, closeLead]

theorem begunFrom_ringLead (lead : List (Change s)) :
    (t.ringLead lead).begunFrom head = (t.begunFrom head).ringLead lead := by
  have same := (t.ringAll lead).lastEnd_lt_begunFrom head
  simp only [ringLead, ← begunFrom_ringAll]
  by_cases marked : (t.ringAll lead).lastEnd < (t.ringAll lead).rows.size
  · rw [dif_pos marked, dif_pos (same.2 marked), begunFrom_closeLead]
  · rw [dif_neg marked, dif_neg (mt same.1 marked)]

theorem begunFrom_ringLeads (lead : List (Change s)) (count : ℕ) :
    (t.ringLeads lead count).begunFrom head = (t.begunFrom head).ringLeads lead count := by
  induction count generalizing t with
  | zero => rfl
  | succ count ih => rw [ringLeads, ih, begunFrom_ringLead, ringLeads]

end Touch

/-! ## Ringing by numbers -/

/-- A number of rows or of leads may be rung before the block is begun from elsewhere, or after. -/
theorem ringing_mul (h seed : Row s) (lead : List (Change s)) {settings : Settings}
    (rule : settings.rule = .rowCount ∨ settings.rule = .leadCount) :
    ringing (h * seed) lead settings = (ringing seed lead settings).map (Block.begunFrom h) := by
  have start := Touch.begunFrom_start h seed
  rcases rule with rule | rule
  · simp only [ringing, rule, Except.map, ← start, ← Touch.begunFrom_ringLeads,
      ← Touch.begunFrom_ringAll, Touch.block_begunFrom]
  · simp only [ringing, rule, Except.map, ← start, ← Touch.begunFrom_ringLeads,
      Touch.block_begunFrom]

theorem ringingLeads_mul (h seed : Row s) (lead : List (Change s)) (count : ℕ) :
    ringingLeads (h * seed) lead count = (ringingLeads seed lead count).begunFrom h := by
  rw [ringingLeads, ← Touch.begunFrom_start, ← Touch.begunFrom_ringLeads, Touch.block_begunFrom]
  rfl

/-- Ringing by numbers is not refused. -/
theorem exists_ringing (seed : Row s) (lead : List (Change s)) {settings : Settings}
    (rule : settings.rule = .rowCount ∨ settings.rule = .leadCount) :
    ∃ b, ringing seed lead settings = .ok b := by
  rcases rule with rule | rule
  · exact ⟨_, by rw [ringing, rule]⟩
  · exact ⟨_, by rw [ringing, rule]⟩

/-- **Ringing commutes with beginning elsewhere.** The block of a number of rows or leads rung from
`h * seed` is the one rung from `seed`, begun from `h`. To begin a block from rounds changes
nothing, and to begin it from `g` and then from `h` is to begin it from `h * g`. And if the plain
course of a method closes, then the course of a course head is what is rung from that head in as
many leads as the plain course has. -/
theorem ringing_commutes_with_begunFrom :
    (∀ (s : Stage) (h seed : Row s) (lead : List (Change s)) (settings : Settings), lead ≠ [] →
      settings.rule = .rowCount ∨ settings.rule = .leadCount →
      ∃ b b' : Block s, ring (.of seed) (lead.map .of) (some settings) = .ok (.of b) ∧
        b.begunFromAny (.of h) = .ok b' ∧
        ring (.of (h * seed)) (lead.map .of) (some settings) = .ok (.of b')) ∧
    (∀ (s : Stage) (b : Block s), b.begunFromAny (.of (Row.rounds s)) = .ok b ∧
      ∀ g h : Row s, ∃ b', b.begunFromAny (.of g) = .ok b' ∧
        b'.begunFromAny (.of h) = b.begunFromAny (.of (h * g))) ∧
    ∀ (m : Method) (course : Block m.stage), m.plainCourse none = .ok course →
      ∀ h : Row m.stage, ∃ b, m.courseOf (.of h) = .ok b ∧
        ringLeads (.of h) (m.changes.map .of) m.leadsPerCourse = .ok (.of b) := by
  refine ⟨fun s h seed lead settings ne rule => ?_, fun s b => ⟨?_, fun g h => ?_⟩,
    fun m course closes h => ⟨course.begunFrom h, ?_, ?_⟩⟩
  · obtain ⟨b, rung⟩ := exists_ringing seed lead rule
    refine ⟨b, b.begunFrom h, ?_, b.begunFromAny_of h, ?_⟩
    · rw [ring_map_of seed ne, Option.getD_some, rung]
      rfl
    · rw [ring_map_of _ ne, Option.getD_some, ringing_mul h seed lead rule, rung]
      rfl
  · rw [Block.begunFromAny_of, Row.rounds_eq_one, Block.begunFrom_one]
  · exact ⟨_, b.begunFromAny_of g, by rw [Block.begunFromAny_of, Block.begunFromAny_of,
      Block.begunFrom_mul]⟩
  · rw [Method.courseOf, closes, Staged.require_of]
    rfl
  · rw [ringLeads_map_of h m.changes_ne_nil, m.eq_ringingLeads_of_plainCourse closes,
      ← ringingLeads_mul, Row.rounds_eq_one, mul_one]
    rfl

/-- Plain hunt at three bells: three rows and two leads rung from a product of two rows, a block
begun from two rows one after the other, and a course of three leads begun from backrounds. -/
theorem ringing_commutes_with_begunFrom_three_bells :
    let s : Stage := ⟨3, by decide, by decide⟩
    let lead : List (Change s) := [.cross s, .ofPaired s (· = 0) (by decide)]
    let m : Method := ⟨"Plain Hunt", s, lead, {}, none, by decide⟩
    let h : Row s := .backrounds s
    let g : Row s := product [.cross s]
    let rows : Settings := ⟨.rowCount, some 3, none, 9, 9, by decide, nofun, by decide, by decide⟩
    let leads : Settings := ⟨.leadCount, none, some 2, 9, 9, nofun, by decide, by decide, by decide⟩
    lead ≠ [] ∧ rows.rule = .rowCount ∧ leads.rule = .leadCount ∧
      (∃ b b' : Block s, ring (.of g) (lead.map .of) (some rows) = .ok (.of b) ∧
        b.begunFromAny (.of h) = .ok b' ∧
        ring (.of (h * g)) (lead.map .of) (some rows) = .ok (.of b')) ∧
      (∃ b b' : Block s, ring (.of g) (lead.map .of) (some leads) = .ok (.of b) ∧
        b.begunFromAny (.of h) = .ok b' ∧
        ring (.of (h * g)) (lead.map .of) (some leads) = .ok (.of b')) ∧
      ∃ course, m.plainCourse none = .ok course ∧ ∃ b, m.courseOf (.of h) = .ok b ∧
        ringLeads (.of h) (m.changes.map .of) m.leadsPerCourse = .ok (.of b) := by
  intro s lead m h g rows leads
  have ne : lead ≠ [] := List.cons_ne_nil _ _
  obtain ⟨numbers, -, courses⟩ := ringing_commutes_with_begunFrom
  have enough : m.leadHead.order ≤ min defaultMaxLeads (defaultMaxRows / m.leadLength) := by decide
  have closes := m.plainCourse_of_le none enough
  exact ⟨ne, rfl, rfl, numbers s h g lead rows ne (.inl rfl),
    numbers s h g lead leads ne (.inr rfl), _, closes, courses m _ closes h⟩

end Campanology
