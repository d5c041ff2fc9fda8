import Campanology.Proofs.Method.PlainCourse
import Campanology.Proofs.Ringing.UntilRounds
import Campanology.Proofs.Truth.Agreement

/-!
# Courses and leads as units

The rows of a course are those of copies of its first lead, begun from the lead heads
(`rows_ringingLeads_eq_copies`). Copies of copies are copies (`Block.copies_flatMap`), so that the
courses of some heads have the same rows, in the same order, as the leads of the lead heads of these
courses (`copies_course`). Whether the courses or the leads are taken for units changes what is said
of the lead and the index of a row, and nothing else (`proveHeads_course_eq_leads`).
-/

namespace Campanology

open Change

variable {s : Stage}

/-! ## Clashes without leads -/

/-- What a clash tells of the rows as one list: the row and its two offsets. -/
def Clash.sighting {α : Type} (c : Clash α) : α × ℕ × ℕ := (c.row, c.first.offset, c.second.offset)

/-- Both reports come of the same look at the same rows: they differ at most in the leads of the
positions and the indices in these. -/
def Report.SameSightings {α : Type} (r r' : Report α) : Prop :=
  r.examined = r'.examined ∧ r.clashes.map Clash.sighting = r'.clashes.map Clash.sighting

/-- A report on rows tells the repeats of the list of rows. -/
theorem map_sighting_reportRepeats (stop : Bool) {locate : ℕ → Position}
    (h : ∀ j, (locate j).offset = j) (rows : List (Row s)) :
    (reportRepeats stop locate rows).clashes.map Clash.sighting = (repeats stop rows).1 := by
  simp [reportRepeats, Function.comp_def, Clash.sighting, h]

theorem sameSightings_reportRepeats (stop : Bool) {locate locate' : ℕ → Position}
    (h : ∀ j, (locate j).offset = j) (h' : ∀ j, (locate' j).offset = j) (rows : List (Row s)) :
    (reportRepeats stop locate rows).SameSightings (reportRepeats stop locate' rows) := by
  refine ⟨rfl, ?_⟩
  rw [map_sighting_reportRepeats stop h, map_sighting_reportRepeats stop h']

/-! ## Rows of leads -/

theorem Change.rung_mul (g r : Row s) (cs : List (Change s)) :
    rung (g * r) cs = (rung r cs).map (g * ·) := by
  induction cs generalizing r with
  | nil => rfl
  | cons c cs ih =>
    rw [rung, rung, List.map_cons, ← ih, next, next, mul_assoc]

namespace Block

/-- The copies of a block which itself consists of copies are copies of the smaller unit. -/
theorem copies_flatMap {unit part : Block s} {parts : List (Row s)}
    (h : unit.rows = part.copies parts) (heads : List (Row s)) :
    unit.copies heads = part.copies (heads.flatMap fun g => parts.map (g * ·)) := by
  rw [copies, copies, List.flatMap_assoc, h]
  refine List.flatMap_congr fun g _ => ?_
  rw [copies, List.map_flatMap, List.flatMap_map]
  simp only [List.map_map, Function.comp_def, mul_assoc]

theorem copies_rounds (unit : Block s) : unit.copies [Row.rounds s] = unit.rows := by
  simp [copies, Row.rounds_eq_one]

end Block

/-- So many leads are copies of a single lead from rounds. -/
theorem rows_ringingLeads_eq_copies (seed : Row s) {lead : List (Change s)} (ne : lead ≠ [])
    (count : ℕ) :
    (ringingLeads seed lead count).rows = (ringingLeads (Row.rounds s) lead 1).copies
      ((List.range count).map fun i => seed * product lead ^ i) := by
  have one : (ringingLeads (Row.rounds s) lead 1).rows = rung 1 lead := by
    rw [rows_ringingLeads _ ne]
    simp [Row.rounds_eq_one]
  rw [rows_ringingLeads seed ne, Block.copies, one, List.flatMap_map]
  refine List.flatMap_congr fun i _ => ?_
  rw [← rung_mul, mul_one]

namespace Method

variable (m : Method)

/-- A course that closes consists of as many leads as the order of the lead head. -/
theorem eq_ringingLeads_of_plainCourse {c : Option Settings} {course : Block m.stage}
    (closes : m.plainCourse c = .ok course) :
    course = ringingLeads (Row.rounds m.stage) m.changes m.leadHead.order := by
  by_cases enough : m.leadHead.order ≤ min (c.getD .standard).maxLeads
      ((c.getD .standard).maxRows / m.leadLength)
  · rw [m.plainCourse_of_le c enough] at closes
    exact (Except.ok.inj closes).symm
  · rw [m.plainCourse_of_lt c (Nat.lt_of_not_le enough)] at closes
    cases closes

/-- The heads of the leads of the courses of some heads. -/
def leadHeadsOf (heads : List (Row m.stage)) : List (Row m.stage) :=
  heads.flatMap fun g => (List.range m.leadsPerCourse).map fun k : ℕ => g * m.leadHead.pow k

/-- The courses of some heads have the rows of the leads of all their lead heads. -/
theorem copies_course {c : Option Settings} {course : Block m.stage}
    (closes : m.plainCourse c = .ok course) (heads : List (Row m.stage)) :
    course.copies heads = (m.leadFrom (Row.rounds m.stage)).copies (m.leadHeadsOf heads) := by
  have rows : course.rows = (m.leadFrom (Row.rounds m.stage)).copies
      ((List.range m.leadsPerCourse).map fun k : ℕ => m.leadHead.pow k) := by
    rw [m.eq_ringingLeads_of_plainCourse closes,
      rows_ringingLeads_eq_copies _ m.changes_ne_nil, ← leadHead_eq_product]
    simp only [Row.rounds_eq_one, one_mul, Row.pow_natCast]
    rfl
  rw [Block.copies_flatMap rows, leadHeadsOf]
  simp only [List.map_map, Function.comp_def]

/-- A lead can be rung from rounds. -/
theorem lead_rounds :
    m.lead (.of (Row.rounds m.stage)) = .ok (.of (m.leadFrom (Row.rounds m.stage))) :=
  ringLeads_map_of _ m.changes_ne_nil 1

/-- **Courses and leads are proved alike.** If the plain course of a method closes, then the courses
of some heads are proved as the leads of all lead heads of these courses are: as many rows are
looked at, and the same rows are found to clash, at the same offsets, which are those of the repeats
of the rows of the courses. If the only head is rounds, then the plain course is proved so too. -/
theorem proveHeads_course_eq_leads (m : Method) (c : Option Settings) {course : Block m.stage}
    (closes : m.plainCourse c = .ok course) (heads : List (Row m.stage)) (stop : Bool) :
    ∃ lead byCourse byLead,
      m.lead (.of (Row.rounds m.stage)) = .ok (.of lead) ∧
      course.proveHeads (heads.map .of) stop = .ok byCourse ∧
      lead.proveHeads ((m.leadHeadsOf heads).map .of) stop = .ok byLead ∧
      byCourse.Tells stop (Block.locateCopy course.rows.length) (course.copies heads) ∧
      byCourse.SameSightings byLead ∧
      (heads = [Row.rounds m.stage] → ∃ plain, m.prove c stop = .ok plain ∧
        plain.SameSightings byCourse ∧ plain.SameSightings byLead) := by
  have offset : ∀ length j, (Block.locateCopy length j).offset = j := fun _ _ => rfl
  have same : (course.proveCopies heads stop).SameSightings
      ((m.leadFrom (Row.rounds m.stage)).proveCopies (m.leadHeadsOf heads) stop) := by
    rw [Block.proveCopies, Block.proveCopies, ← m.copies_course closes heads]
    exact sameSightings_reportRepeats stop (offset _) (offset _) _
  refine ⟨_, _, _, m.lead_rounds, course.proveHeads_map_of heads stop,
    Block.proveHeads_map_of _ (m.leadHeadsOf heads) stop,
    tells_reportRepeats stop (offset _) _, same, ?_⟩
  rintro rfl
  have plain : (course.prove stop).SameSightings
      (course.proveCopies [Row.rounds m.stage] stop) := by
    rw [Block.prove, Block.proveCopies, Block.copies_rounds]
    exact sameSightings_reportRepeats stop (fun _ => rfl) (offset _) _
  refine ⟨course.prove stop, ?_, plain, plain.1.trans same.1, plain.2.trans same.2⟩
  rw [prove, closes]
  rfl

/-- Plain hunt at three bells: a course from backrounds begins with the fourth row of the plain
course, and with it the search stops. -/
theorem proveHeads_course_eq_leads_three_bells :
    let s : Stage := ⟨3, by decide, by decide⟩
    let m : Method :=
      ⟨"Plain Hunt", s, [.cross s, .ofPaired s (· = 0) (by decide)], {}, none, by decide⟩
    let heads : List (Row s) := [.rounds s, .backrounds s]
    ∃ course lead, m.plainCourse none = .ok course ∧ m.lead (.of (.rounds s)) = .ok (.of lead) ∧
      (∃ byCourse byLead, course.proveHeads (heads.map .of) true = .ok byCourse ∧
        lead.proveHeads ((m.leadHeadsOf heads).map .of) true = .ok byLead ∧
        byCourse.SameSightings byLead ∧ byCourse.examined = 7 ∧
        byCourse.clashes.map Clash.sighting = [(.backrounds s, 3, 6)]) ∧
      ∃ plain byCourse byLead, m.prove none false = .ok plain ∧
        course.proveHeads [.of (.rounds s)] false = .ok byCourse ∧
        lead.proveHeads ((m.leadHeadsOf [.rounds s]).map .of) false = .ok byLead ∧
        plain.SameSightings byCourse ∧ plain.SameSightings byLead := by
  intro s m heads
  have enough : m.leadHead.order ≤ min defaultMaxLeads (defaultMaxRows / m.leadLength) := by decide
  have closes := m.plainCourse_of_le none enough
  obtain ⟨lead, byCourse, byLead, rung, courses, leads, -, same, -⟩ :=
    m.proveHeads_course_eq_leads none closes heads true
  obtain ⟨lead', byCourse', byLead', rung', courses', leads', -, -, plain⟩ :=
    m.proveHeads_course_eq_leads none closes [.rounds s] false
  obtain ⟨report, proved, like, likeLead⟩ := plain rfl
  obtain rfl : lead = lead' := by simpa [Staged.of] using rung.symm.trans rung'
  have found : byCourse = Block.proveCopies _ heads true :=
    Except.ok.inj (courses.symm.trans (Block.proveHeads_map_of _ heads true))
  refine ⟨_, lead, closes, rung, ⟨byCourse, byLead, courses, leads, same, ?_, ?_⟩,
    report, byCourse', byLead', proved, courses', leads', like, likeLead⟩
  · rw [found, Block.proveCopies, reportRepeats, repeats_eq]
    decide +kernel
  · rw [found, Block.proveCopies, map_sighting_reportRepeats _ fun _ => rfl, repeats_eq]
    decide +kernel

end Method

end Campanology
