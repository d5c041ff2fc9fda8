import Campanology.Proofs.Method.PlainCourse
import Campanology.Proofs.Truth.Quotients
import Campanology.Truth.Prover

/-!
# What a session keeps

In one session a prover may be asked for the unit, for its table, to make them or to drop them, and
for proofs, in any order (`Prover.perform`). Each of these requests can also be met without a
session, by ringing anew whatever it takes (`Prover.anew`).

A session keeps nothing but what would be made anew: a unit that is kept is the one that is rung,
and a table that is kept is that of the unit which is kept (`Prover.Kept`). Whatever is asked, this
stays so, and the outcome is the one that there is without a session (`Prover.yields_perform`). So
nobody can tell from the outcomes what was asked before (`Prover.perform_after_history`).
-/

namespace Campanology

namespace Prover

/-! ## Requests -/

/-- What may be asked of a prover. -/
inductive Request
  | unit
  | table
  | prepare
  | forget
  | proveBlock (block : Staged Block) (id : Option String)
  | provePlainCourse
  | proveCourses (heads : List (Staged Row)) (id : Option String)
  /-- The pairs are looked for by workers who take the heads in the given order. -/
  | clashingPairs (heads : List (Staged Row)) (order : List ℕ)

/-- What a prover answers. -/
inductive Answer (s : Stage)
  | unit (b : Block s)
  | table (t : QuotientTable s)
  | done
  | report (r : Report (Staged Row))
  | pairs (ps : List (ℕ × ℕ))

variable (d : Prover)

/-- An outcome with another answer made of the one it has. -/
def answer {α β : Type} (f : α → β) (outcome : d.Outcome α) : d.Outcome β :=
  (f <$> outcome.1, outcome.2)

/-- The answer to a request in a session, or its refusal, and the session after it. -/
def perform (request : Request) (σ : Session d.method.stage) :
    d.Outcome (Answer d.method.stage) :=
  match request with
  | .unit => d.answer Answer.unit (d.unit σ)
  | .table => d.answer Answer.table (d.table σ)
  | .prepare => d.answer (fun _ => .done) (d.prepare σ)
  | .forget => (.ok .done, σ.forget)
  | .proveBlock block id => d.answer Answer.report (d.proveBlock block id σ)
  | .provePlainCourse => d.answer Answer.report (d.provePlainCourse σ)
  | .proveCourses heads id => d.answer Answer.report (d.proveCourses heads id σ)
  | .clashingPairs heads order => d.answer Answer.pairs (d.clashingPairsIn order heads σ)

/-- The session after a history of requests. -/
def after (history : List Request) (σ : Session d.method.stage) : Session d.method.stage :=
  history.foldl (fun σ request => (d.perform request σ).2) σ

/-- The report on the copies of a unit rung from heads, by the approach of the options. -/
def proveCopiesOf (unit : Block d.method.stage) (heads : List (Staged Row)) :
    Except Fault (Report (Staged Row)) :=
  match d.options.approach with
  | .direct => (orFault (unit.proveHeads heads d.options.stopAtFirst)).map .staged
  | .relational =>
    (orFault ((QuotientTable.ofBlock unit).proveHeads heads d.options.stopAtFirst)).map .staged

/-- The answer to a request without a session, or its refusal. -/
def anew : Request → Except Fault (Answer d.method.stage)
  | .unit => do
    let unit ← d.ringUnit
    return .unit unit
  | .table => do
    let unit ← d.ringUnit
    return .table (.ofBlock unit)
  | .prepare => do
    let _ ← d.ringUnit
    return .done
  | .forget => return .done
  | .proveBlock block _ => return .report (block.val.prove d.options.stopAtFirst).staged
  | .provePlainCourse => do
    let course ← orFault (d.method.plainCourse (some d.options.settings))
    return .report (course.prove d.options.stopAtFirst).staged
  | .proveCourses heads _ => do
    let unit ← d.ringUnit
    let report ← d.proveCopiesOf unit heads
    return .report report
  | .clashingPairs heads _ => do
    let unit ← d.ringUnit
    let pairs ← orFault ((QuotientTable.ofBlock unit).clashingPairsAny heads)
    return .pairs pairs

/-! ## What is kept -/

/-- What the session keeps is what would be made. -/
structure Kept (σ : Session d.method.stage) : Prop where
  unit : ∀ b, σ.unit = some b → d.ringUnit = .ok b
  table : ∀ t, σ.table = some t → ∃ b, σ.unit = some b ∧ t = .ofBlock b

/-- The outcome is the given one, and the session after it keeps what would be made. -/
structure Yields {α : Type} (outcome : d.Outcome α) (result : Except Fault α) : Prop where
  fst : outcome.1 = result
  kept : d.Kept outcome.2

variable {d} {σ σ' : Session d.method.stage}

theorem kept_start (sheet : Option TimeSheet) : d.Kept (.start sheet) where
  unit b h := by cases h
  table t h := by cases h

/-- Nothing else matters of a session. -/
theorem Kept.congr (h : d.Kept σ) (unit : σ'.unit = σ.unit) (table : σ'.table = σ.table) :
    d.Kept σ' where
  unit := unit ▸ h.unit
  table := unit ▸ table ▸ h.table

theorem kept_forget (σ : Session d.method.stage) : d.Kept σ.forget where
  unit b h := by cases h
  table t h := by cases h

theorem Kept.charge (h : d.Kept σ) (phase : String) (id : Option String) :
    d.Kept (d.charge phase id σ) := h.congr rfl rfl

theorem Kept.nameProof (h : d.Kept σ) (id : Option String) : d.Kept (d.nameProof id σ).2 := by
  unfold Prover.nameProof
  split
  · exact h
  · exact h.congr rfl rfl

theorem Kept.conclude {α : Type} (h : d.Kept σ) (phase id : String) (heads : ℕ)
    (found : Except Fault (Report α)) : d.Yields (d.conclude phase id heads found σ) found := by
  cases found with
  | ok report => exact ⟨rfl, h.congr rfl rfl⟩
  | error f => exact ⟨rfl, h.charge phase id⟩

theorem Yields.answer {α β : Type} {outcome : d.Outcome α} {result : Except Fault α}
    (h : d.Yields outcome result) (f : α → β) : d.Yields (d.answer f outcome) (f <$> result) :=
  ⟨congrArg (f <$> ·) h.fst, h.kept⟩

/-- An outcome is a refusal or an answer. -/
theorem Yields.cases {α : Type} {outcome : d.Outcome α} {result : Except Fault α}
    (h : d.Yields outcome result) :
    (∃ f σ, outcome = (.error f, σ) ∧ result = .error f ∧ d.Kept σ) ∨
      ∃ x σ, outcome = (.ok x, σ) ∧ result = .ok x ∧ d.Kept σ := by
  obtain ⟨found, σ⟩ := outcome
  obtain ⟨rfl, kept⟩ := h
  cases found with
  | error f => exact .inl ⟨f, σ, rfl, rfl, kept⟩
  | ok x => exact .inr ⟨x, σ, rfl, rfl, kept⟩

/-! ## Outcomes in a session -/

/-- A unit which has been asked for is kept. -/
theorem unit_kept_of_ok {b : Block d.method.stage} (rung : (d.unit σ).1 = .ok b) :
    (d.unit σ).2.unit = some b := by
  rw [Prover.unit] at rung ⊢
  cases kept : σ.unit with
  | some b' =>
    rw [kept] at rung
    obtain rfl : b' = b := Except.ok.inj rung
    exact kept
  | none =>
    rw [kept] at rung
    cases anew : d.ringUnit with
    | error f =>
      rw [anew] at rung
      cases rung
    | ok b' =>
      rw [anew] at rung
      obtain rfl : b' = b := Except.ok.inj rung
      rfl

namespace Kept

variable (h : d.Kept σ)

include h

/-- The unit is the one that is rung anew. -/
theorem yields_unit : d.Yields (d.unit σ) d.ringUnit := by
  rw [Prover.unit]
  cases kept : σ.unit with
  | some b => exact ⟨(h.unit b kept).symm, h⟩
  | none =>
    cases rung : d.ringUnit with
    | error f => exact ⟨rfl, h.charge _ _⟩
    | ok b =>
      refine ⟨rfl, ⟨fun b' e => ?_, fun t ht => ?_⟩⟩
      · obtain rfl : b = b' := Option.some.inj e
        exact rung
      · -- there is no table without a unit
        obtain ⟨b', hb', -⟩ := h.table t ht
        rw [kept] at hb'
        cases hb'

/-- There is a table if the unit is rung, and it is that of the unit. -/
theorem table_cases :
    (∃ f σ', d.table σ = (.error f, σ') ∧ d.ringUnit = .error f ∧ d.Kept σ') ∨
      ∃ b σ', d.table σ = (.ok (.ofBlock b), σ') ∧ d.ringUnit = .ok b ∧ d.Kept σ' := by
  have after : ∀ b, (d.unit σ).1 = .ok b → (d.unit σ).2.unit = some b :=
    fun b => unit_kept_of_ok
  rw [Prover.table]
  obtain ⟨f, σ', e, anew, kept⟩ | ⟨b, σ', e, anew, kept⟩ := h.yields_unit.cases
  · rw [e]
    exact .inl ⟨f, σ', rfl, anew, kept⟩
  · rw [e] at after ⊢
    have hb : σ'.unit = some b := after b rfl
    right
    cases ht : σ'.table with
    | some t =>
      obtain ⟨b', hb', rfl⟩ := kept.table t ht
      obtain rfl : b = b' := Option.some.inj (hb.symm.trans hb')
      exact ⟨b, σ', by simp only [ht], anew, kept⟩
    | none =>
      simp only [ht]
      refine ⟨b, _, rfl, anew, ⟨kept.unit, fun t made => ⟨b, hb, ?_⟩⟩⟩
      exact (Option.some.inj made).symm

theorem yields_table : d.Yields (d.table σ) (QuotientTable.ofBlock <$> d.ringUnit) := by
  obtain ⟨f, σ', e, anew, kept⟩ | ⟨b, σ', e, anew, kept⟩ := h.table_cases
  · rw [e, anew]
    exact ⟨rfl, kept⟩
  · rw [e, anew]
    exact ⟨rfl, kept⟩

theorem yields_prepare : d.Yields (d.prepare σ) ((fun _ => ()) <$> d.ringUnit) := by
  rw [Prover.prepare]
  cases d.options.approach with
  | direct => exact h.yields_unit.answer fun _ => ()
  | relational =>
    have made := h.yields_table.answer fun _ => ()
    rw [Functor.map_map] at made
    exact made

theorem yields_proveBlock (block : Staged Block) (id : Option String) :
    d.Yields (d.proveBlock block id σ)
      (.ok (block.val.prove d.options.stopAtFirst).staged) := by
  rw [Prover.proveBlock]
  exact (h.nameProof id).conclude "block_check" (d.nameProof id σ).1 1
    (.ok (block.val.prove d.options.stopAtFirst).staged)

theorem yields_provePlainCourse :
    d.Yields (d.provePlainCourse σ)
      ((fun course => (course.prove d.options.stopAtFirst).staged) <$>
        orFault (d.method.plainCourse (some d.options.settings))) := by
  rw [Prover.provePlainCourse]
  cases orFault (d.method.plainCourse (some d.options.settings)) with
  | error f => exact ⟨rfl, h⟩
  | ok course => exact h.yields_proveBlock (.of course) none

theorem yields_proveCourses (heads : List (Staged Row)) (id : Option String) :
    d.Yields (d.proveCourses heads id σ)
      (d.ringUnit >>= fun unit => d.proveCopiesOf unit heads) := by
  have named := h.nameProof id
  unfold Prover.proveCourses proveCopiesOf
  cases d.options.approach with
  | direct =>
    obtain ⟨f, σ', e, anew, kept⟩ | ⟨unit, σ', e, anew, kept⟩ := named.yields_unit.cases
    · simp only [e, anew]
      exact ⟨rfl, kept⟩
    · simp only [e, anew]
      exact kept.conclude ..
  | relational =>
    obtain ⟨f, σ', e, anew, kept⟩ | ⟨unit, σ', e, anew, kept⟩ := named.table_cases
    · simp only [e, anew]
      exact ⟨rfl, kept⟩
    · simp only [e, anew]
      exact kept.conclude ..

theorem yields_clashingPairsIn (heads : List (Staged Row)) (order : List ℕ) :
    d.Yields (d.clashingPairsIn order heads σ) (d.ringUnit >>= fun unit =>
      orFault ((QuotientTable.ofBlock unit).clashingPairsAny heads)) := by
  rw [Prover.clashingPairsIn]
  obtain ⟨f, σ', e, anew, kept⟩ | ⟨unit, σ', e, anew, kept⟩ := h.table_cases
  · rw [e, anew]
    exact ⟨rfl, kept⟩
  · rw [e, anew]
    simp only [QuotientTable.clashingPairsAnyIn_eq]
    exact ⟨rfl, kept⟩

end Kept

/-! ## Histories -/

/-- **Whatever is asked, the outcome is the one that there is without the session**, and the session
goes on to keep what would be made. -/
theorem yields_perform (h : d.Kept σ) (request : Request) :
    d.Yields (d.perform request σ) (d.anew request) := by
  cases request with
  | unit => simpa [perform, anew] using h.yields_unit.answer Answer.unit
  | table => simpa [perform, anew] using h.yields_table.answer Answer.table
  | prepare => simpa [perform, anew] using h.yields_prepare.answer fun _ => Answer.done
  | forget => exact ⟨rfl, kept_forget σ⟩
  | proveBlock block id => exact (h.yields_proveBlock block id).answer Answer.report
  | provePlainCourse => simpa [perform, anew] using h.yields_provePlainCourse.answer Answer.report
  | proveCourses heads id =>
    simpa [perform, anew] using (h.yields_proveCourses heads id).answer Answer.report
  | clashingPairs heads order =>
    simpa [perform, anew] using (h.yields_clashingPairsIn heads order).answer Answer.pairs

theorem kept_after (h : d.Kept σ) (history : List Request) : d.Kept (d.after history σ) := by
  induction history generalizing σ with
  | nil => exact h
  | cons request history ih => exact ih (yields_perform h request).kept

/-! ## Courses which do not close -/

/-- Whether the plain course is rung to meet the request, if it is the unit or if it is not. -/
def Request.NeedsCourse (kind : UnitKind) : Request → Prop
  | .forget => False
  | .proveBlock _ _ => False
  | .provePlainCourse => True
  | _ => kind = .course

section Unclosed

variable {f : Unclosed d.method.stage}
  (unclosed : d.method.plainCourse (some d.options.settings) = .error f)

include unclosed

theorem ringUnit_of_unclosed (course : d.options.unit = .course) :
    d.ringUnit = .error (.doesNotClose f.rows f.leads (.of f.last)) := by
  rw [ringUnit, course, Method.unit, unclosed]
  rfl

theorem anew_of_unclosed {request : Request} (needs : request.NeedsCourse d.options.unit) :
    d.anew request = .error (.doesNotClose f.rows f.leads (.of f.last)) := by
  cases request with
  | forget => exact needs.elim
  | proveBlock => exact needs.elim
  | provePlainCourse =>
    rw [anew, unclosed]
    rfl
  | _ =>
    rw [anew, ringUnit_of_unclosed unclosed needs]
    rfl

/-- Of a course which does not close nothing is kept. -/
theorem Kept.none_of_unclosed (h : d.Kept σ) (course : d.options.unit = .course) :
    σ.unit = none ∧ σ.table = none := by
  have none : σ.unit = none := by
    cases kept : σ.unit with
    | none => rfl
    | some b =>
      have rung := h.unit b kept
      rw [ringUnit_of_unclosed unclosed course] at rung
      cases rung
  refine ⟨none, ?_⟩
  cases made : σ.table with
  | none => rfl
  | some t =>
    obtain ⟨b, kept, -⟩ := h.table t made
    rw [none] at kept
    cases kept

end Unclosed

variable (d) in
/-- **Nobody can tell what was asked before.** After any history of requests, the refused ones
included, a request has the outcome that there is without a session; and the number of workers and
their order do not matter. A course which does not close is refused by every request which needs it,
and never is anything of it kept. -/
theorem perform_after_history (sheet : Option TimeSheet) (history : List Request)
    (request : Request) :
    let σ := d.after history (.start sheet)
    (d.perform request σ).1 = d.anew request ∧ d.Kept σ ∧
      (∀ (unit : Block d.method.stage) (maxWorkers : Option ℤ) (order : List ℕ)
        (heads : List (Staged Row)),
        (QuotientTable.ofBlock unit).clashingPairsAnyIn maxWorkers order heads =
          (QuotientTable.ofBlock unit).clashingPairsAny heads) ∧
      ∀ f, d.method.plainCourse (some d.options.settings) = .error f →
        (request.NeedsCourse d.options.unit →
          (d.perform request σ).1 = .error (.doesNotClose f.rows f.leads (.of f.last))) ∧
        (d.options.unit = .course → σ.unit = none ∧ σ.table = none) := by
  intro σ
  have kept : d.Kept σ := kept_after (kept_start sheet) history
  have outcome := (yields_perform kept request).fst
  refine ⟨outcome, kept, fun unit maxWorkers order heads => ?_, fun f unclosed => ?_⟩
  · exact QuotientTable.clashingPairsAnyIn_eq ..
  · refine ⟨fun needs => ?_, fun course => kept.none_of_unclosed unclosed course⟩
    rw [outcome, anew_of_unclosed unclosed needs]

/-- Plain hunt at three bells. Within five rows its course does not close, however often it is asked
for; within the usual caps it does, and is what there is after any history. -/
theorem perform_after_history_three_bells :
    let s : Stage := ⟨3, by decide, by decide⟩
    let m : Method :=
      ⟨"Plain Hunt", s, [.cross s, .ofPaired s (· = 0) (by decide)], {}, none, by decide⟩
    let tight : Settings := .capped 5 9 (by decide) (by decide)
    let options (settings : Settings) : Options :=
      ⟨.relational, .course, true, some 2, settings, by decide⟩
    let hurried : Prover := { method := m, options := options tight }
    let patient : Prover := { method := m, options := options .standard }
    let heads : List (Staged Row) := [.of (.rounds s), .of (.backrounds s)]
    let history : List Request := [.proveCourses heads none, .prepare, .forget, .table]
    m.plainCourse (some tight) = .error ⟨4, 2, m.leadHead ^ 2⟩ ∧
      (hurried.perform (.clashingPairs heads [1]) (hurried.after history (.start none))).1 =
        .error (.doesNotClose 4 2 (.of (m.leadHead ^ 2))) ∧
      ∃ course, m.plainCourse (some .standard) = .ok course ∧
        (patient.perform .unit (patient.after history (.start none))).1 = .ok (.unit course) := by
  intro s m tight options hurried patient heads history
  have budget : min ((some tight).getD .standard).maxLeads
      (((some tight).getD .standard).maxRows / m.leadLength) = 2 := by decide
  have unclosed := m.plainCourse_of_lt (some tight) (by decide)
  rw [budget] at unclosed
  have closed := m.plainCourse_of_le (some .standard) (by decide)
  obtain ⟨-, -, -, refused⟩ :=
    hurried.perform_after_history none history (.clashingPairs heads [1])
  obtain ⟨outcome, -⟩ := patient.perform_after_history none history .unit
  refine ⟨unclosed, (refused _ unclosed).1 rfl, _, closed, outcome.trans ?_⟩
  rw [anew, ringUnit, Method.unit, closed]
  rfl

end Prover

end Campanology
