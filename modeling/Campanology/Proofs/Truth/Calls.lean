import Campanology.Proofs.Refusals
import Campanology.Proofs.Truth.Accounts

/-!
# Calls and what they enter

A history of requests is told call by call (`Prover.calls`): what was requested, how many numbers
were taken before, and what came of it. Whether a request comes so far as to look for clashes
(`Prover.begins`) and whether it takes a number (`Prover.numbers`) can be told without the session.

One request takes its number and enters its proof, if it begins one (`Prover.enters_perform`). So
the proofs on the sheet after any history are those of the calls which began, entered one after
another under their names (`Prover.proofs_after`). Those calls are the ones which are answered by a
report or refused for a head of another stage (`Prover.anew_of_begins`, `Prover.begins_of_anew`).
-/

namespace Campanology

namespace Prover

/-! ## Calls -/

namespace Request

/-- The name that a request gives to its proof; the empty one counts as none. -/
def given : Request → Option String
  | .proveBlock _ id => id.filter (· ≠ "")
  | .proveCourses _ id => id.filter (· ≠ "")
  | _ => none

/-- Of how many heads the proof is; a block counts as one. -/
def heads : Request → ℕ
  | .proveCourses heads _ => heads.length
  | _ => 1

theorem given_ne_empty {request : Request} {id : String} (h : request.given = some id) :
    id ≠ "" := by
  cases request with
  | proveBlock block id' => simpa using (Option.filter_eq_some_iff.1 h).2
  | proveCourses heads id' => simpa using (Option.filter_eq_some_iff.1 h).2
  | _ => cases h

end Request

/-- A request, how many numbers were taken before it, and its outcome. -/
structure Call (s : Stage) where
  request : Request
  taken : ℕ
  outcome : Except Fault (Answer s)

namespace Call

variable {s : Stage}

/-- The report, if the call is answered by one. -/
def report? (c : Call s) : Option (Report (Staged Row)) :=
  match c.outcome with
  | .ok (.report r) => some r
  | _ => none

theorem report?_eq_some_iff {c : Call s} {r : Report (Staged Row)} :
    c.report? = some r ↔ c.outcome = .ok (.report r) := by
  rw [report?]
  split <;> simp_all

/-- The work that the report tells, and none if there is no report. -/
def work (c : Call s) : Work :=
  match c.report? with
  | some r => r.work c.request.heads
  | none => ⟨"", 0, 0, none⟩

end Call

variable (d : Prover)

/-- Whether a request comes so far as to look for clashes: the plain course is proved if it closes,
copies of the unit if there is one. -/
def begins : Request → Bool
  | .proveBlock _ _ => true
  | .provePlainCourse => (d.method.plainCourse (some d.options.settings)).isOk
  | .proveCourses _ _ => d.ringUnit.isOk
  | _ => false

/-- Whether a request takes a number: proofs without a name do, that of the plain course only if it
begins. -/
def numbers : Request → Bool
  | .proveBlock block id => (Request.proveBlock block id).given.isNone
  | .provePlainCourse => d.begins .provePlainCourse
  | .proveCourses heads id => (Request.proveCourses heads id).given.isNone
  | _ => false

/-- The phase in which a proof looks for clashes. -/
def phase : Request → String
  | .proveCourses _ _ => d.copiesPhase
  | _ => "block_check"

/-- The name of the proof: the one that is given, or else that of the next number. -/
def nameOf (c : Call d.method.stage) : String := c.request.given.getD (d.numberedName (c.taken + 1))

/-- The calls of a history of requests, if so many numbers are taken before it. -/
def calls : ℕ → List Request → Session d.method.stage → List (Call d.method.stage)
  | _, [], _ => []
  | taken, request :: history, σ =>
    ⟨request, taken, (d.perform request σ).1⟩ ::
      calls (taken + (d.numbers request).toNat) history (d.perform request σ).2

/-- What is kept of the proof of a call, given what was kept under its name before. -/
def enteredBy (c : Call d.method.stage) : Option ProofEntry → ProofEntry :=
  d.entered (d.phase c.request) c.request.heads c.report?

variable {d}

theorem nameOf_ne_empty (c : Call d.method.stage) : d.nameOf c ≠ "" := by
  rw [nameOf]
  cases given : c.request.given with
  | none => exact d.numberedName_ne_empty _
  | some id => exact Request.given_ne_empty given

theorem work_enteredBy (c : Call d.method.stage) : (d.enteredBy c none).work = c.work := by
  rw [enteredBy, work_entered, Call.work]
  cases c.report? <;> rfl

/-! ## One call -/

theorem fst_nameProof (σ : Session d.method.stage) (id : Option String) :
    (d.nameProof id σ).1 = (id.filter (· ≠ "")).getD (d.numberedName (σ.numbered + 1)) := by
  rw [nameProof]
  cases id.filter (· ≠ "") <;> rfl

theorem numbered_nameProof (σ : Session d.method.stage) (id : Option String) :
    (d.nameProof id σ).2.numbered = σ.numbered + (id.filter (· ≠ "")).isNone.toNat := by
  rw [nameProof]
  cases id.filter (· ≠ "") <;> rfl

theorem proofs_nameProof (σ : Session d.method.stage) (id : Option String) :
    (d.nameProof id σ).2.proofs = σ.proofs := by
  rw [nameProof]
  cases id.filter (· ≠ "") <;> rfl

variable (d) in
/-- From one session to the next a call takes its number and enters its proof. -/
structure Enters (c : Call d.method.stage) (σ σ' : Session d.method.stage) : Prop where
  numbered : σ'.numbered = σ.numbered + (d.numbers c.request).toNat
  proofs : σ'.proofs = σ.proofs.map fun p =>
    if d.begins c.request then p.alter (d.nameOf c) (d.enteredBy c) else p

namespace Enters

variable {σ σ' : Session d.method.stage}

/-- A call which begins no proof. -/
theorem of_not_begins {c : Call d.method.stage} (begins : d.begins c.request = false)
    (numbered : σ'.numbered = σ.numbered + (d.numbers c.request).toNat)
    (proofs : σ'.proofs = σ.proofs) : d.Enters c σ σ' where
  numbered := numbered
  proofs := by
    rw [proofs, begins]
    exact Option.map_id'.symm

/-- A call which takes no number either. -/
theorem of_onlyPrepares {c : Call d.method.stage} (begins : d.begins c.request = false)
    (numbers : d.numbers c.request = false) (prepares : σ.OnlyPrepares σ') : d.Enters c σ σ' :=
  .of_not_begins begins (by rw [prepares.numbered, numbers, Bool.toNat_false, Nat.add_zero])
    prepares.proofs

/-- A call which is given a name or takes a number, makes what it needs and concludes its proof. -/
theorem conclude (request : Request) (id : Option String)
    (given : request.given = id.filter (· ≠ ""))
    (numbers : d.numbers request = request.given.isNone) (begins : d.begins request = true)
    (prepares : (d.nameProof id σ).2.OnlyPrepares σ')
    (found : Except Fault (Report (Staged Row))) :
    let outcome := d.answer Answer.report
      (d.conclude (d.phase request) (d.nameProof id σ).1 request.heads found σ')
    d.Enters ⟨request, σ.numbered, outcome.1⟩ σ outcome.2 := by
  intro outcome
  let c : Call d.method.stage := ⟨request, σ.numbered, outcome.1⟩
  have name : (d.nameProof id σ).1 = d.nameOf c := by
    rw [fst_nameProof, ← given]
    rfl
  have told : found.toOption = c.report? := by
    cases found <;> rfl
  refine ⟨?_, ?_⟩
  · exact (numbered_conclude ..).trans
      (by rw [prepares.numbered, numbered_nameProof, numbers, given])
  · refine (proofs_conclude_eq_alter σ' _ (name ▸ nameOf_ne_empty c) _ found).trans ?_
    rw [prepares.proofs, proofs_nameProof, name, told, begins]
    rfl

end Enters

theorem Kept.isOk_prepare {σ : Session d.method.stage} (kept : d.Kept σ) :
    (d.prepare σ).1.isOk = d.ringUnit.isOk := by
  rw [kept.yields_prepare.fst]
  cases d.ringUnit <;> rfl

/-- A request takes its number and enters its proof, whatever was asked before. -/
theorem enters_perform {σ : Session d.method.stage} (kept : d.Kept σ) (request : Request) :
    d.Enters ⟨request, σ.numbered, (d.perform request σ).1⟩ σ (d.perform request σ).2 := by
  cases request with
  | unit => exact .of_onlyPrepares rfl rfl (onlyPrepares_unit σ)
  | table => exact .of_onlyPrepares rfl rfl (onlyPrepares_table σ)
  | prepare => exact .of_onlyPrepares rfl rfl (onlyPrepares_prepare σ)
  | forget => exact .of_onlyPrepares rfl rfl ⟨rfl, rfl⟩
  | clashingPairs heads order =>
    have made := onlyPrepares_table (d := d) σ
    refine .of_onlyPrepares rfl rfl ?_
    rw [perform, clashingPairsIn]
    rcases e : d.table σ with ⟨_ | t, σ'⟩
    · rw [e] at made
      exact made
    · rw [e] at made
      exact made
  | proveBlock block id => exact .conclude (.proveBlock block id) id rfl rfl rfl (.refl _) _
  | provePlainCourse =>
    rw [perform, provePlainCourse]
    cases rung : d.method.plainCourse (some d.options.settings) with
    | error f =>
      have short : d.begins .provePlainCourse = false := by
        rw [begins, rung]
        rfl
      exact .of_onlyPrepares short short (.refl σ)
    | ok course =>
      have begun : d.begins .provePlainCourse = true := by
        rw [begins, rung]
        rfl
      exact .conclude .provePlainCourse none rfl begun begun (.refl _) _
  | proveCourses heads id =>
    have made := onlyPrepares_prepare (d := d) (d.nameProof id σ).2
    have ready : d.begins (.proveCourses heads id) = (d.prepare (d.nameProof id σ).2).1.isOk :=
      (kept.nameProof id).isOk_prepare.symm
    rw [perform]
    obtain ⟨f, refused, e⟩ | ⟨done, found, e⟩ := proveCourses_cases σ heads id
    · rw [e]
      refine .of_not_begins (ready.trans (by rw [refused]; rfl)) ?_
        (made.proofs.trans (proofs_nameProof σ id))
      exact made.numbered.trans (numbered_nameProof σ id)
    · rw [e]
      exact .conclude (.proveCourses heads id) id rfl rfl (ready.trans (by rw [done]; rfl)) made
        found

/-! ## Histories -/

/-- After a history the proofs that began are entered, one after another. -/
theorem proofs_after {σ : Session d.method.stage} (kept : d.Kept σ) (history : List Request) :
    (d.after history σ).proofs = σ.proofs.map fun p =>
      ((d.calls σ.numbered history σ).filter (d.begins ·.request)).foldl
        (fun p c => p.alter (d.nameOf c) (d.enteredBy c)) p := by
  induction history generalizing σ with
  | nil => exact Option.map_id'.symm
  | cons request history ih =>
    have step := enters_perform kept request
    rw [after, List.foldl_cons, ← after, ih (yields_perform kept request).kept, step.proofs,
      Option.map_map, step.numbered, calls]
    refine Option.map_congr fun p _ => ?_
    rw [List.filter_cons, Function.comp_apply]
    split <;> rfl

/-- On a sheet which was empty there is nothing else. -/
theorem exists_sheet (d : Prover) (history : List Request) :
    ∃ t, (d.after history (.start (some .empty))).sheet = some t ∧
      t.proofs = ((d.calls 0 history (.start (some .empty))).filter (d.begins ·.request)).foldl
        (fun p c => p.alter (d.nameOf c) (d.enteredBy c)) .empty := by
  have kept : d.Kept (.start (some .empty)) := kept_start _
  obtain ⟨t, sheet, proofs⟩ := Option.map_eq_some_iff.1 (proofs_after kept history)
  exact ⟨t, sheet, proofs⟩

theorem numbered_after {σ : Session d.method.stage} (kept : d.Kept σ) (history : List Request) :
    (d.after history σ).numbered = σ.numbered + history.countP d.numbers := by
  induction history generalizing σ with
  | nil => rfl
  | cons request history ih =>
    have step := enters_perform kept request
    rw [after, List.foldl_cons, ← after, ih (yields_perform kept request).kept, step.numbered,
      List.countP_cons]
    cases d.numbers request with
    | false => rfl
    | true => exact (Nat.add_assoc ..).trans (congrArg (_ + ·) (Nat.add_comm ..))

theorem length_calls (taken : ℕ) (history : List Request) (σ : Session d.method.stage) :
    (d.calls taken history σ).length = history.length := by
  induction history generalizing taken σ with
  | nil => rfl
  | cons request history ih => exact congrArg (· + 1) (ih ..)

/-- The outcome of a call is the one that there is without a session. -/
theorem outcome_of_mem_calls {σ : Session d.method.stage} (kept : d.Kept σ) {taken : ℕ}
    {history : List Request} {c : Call d.method.stage} (mem : c ∈ d.calls taken history σ) :
    c.outcome = d.anew c.request := by
  induction history generalizing σ taken with
  | nil => cases mem
  | cons request history ih =>
    obtain rfl | later := List.mem_cons.1 mem
    · exact (yields_perform kept request).fst
    · exact ih (yields_perform kept request).kept later

/-! ## Outcomes -/

/-- A proof of copies is refused for nothing but a head of another stage. -/
theorem proveCopiesOf_cases (unit : Block d.method.stage) (heads : List (Staged Row)) :
    (∃ r, d.proveCopiesOf unit heads = .ok r) ∨
      ∃ m, d.proveCopiesOf unit heads = .error (.mismatch m) := by
  rw [proveCopiesOf]
  cases d.options.approach with
  | direct =>
    cases unit.proveHeads heads d.options.stopAtFirst with
    | ok r => exact .inl ⟨_, rfl⟩
    | error m => exact .inr ⟨m, rfl⟩
  | relational =>
    cases (QuotientTable.ofBlock unit).proveHeads heads d.options.stopAtFirst with
    | ok r => exact .inl ⟨_, rfl⟩
    | error m => exact .inr ⟨m, rfl⟩

/-- A request which begins a proof is answered by a report, or refused for a head of another
stage. -/
theorem anew_of_begins {request : Request} (begins : d.begins request) :
    (∃ r, d.anew request = .ok (.report r)) ∨ ∃ m, d.anew request = .error (.mismatch m) := by
  cases request with
  | proveBlock block id => exact .inl ⟨_, rfl⟩
  | provePlainCourse =>
    rw [anew]
    rw [Prover.begins] at begins
    cases rung : d.method.plainCourse (some d.options.settings) with
    | ok course => exact .inl ⟨_, rfl⟩
    | error f =>
      rw [rung] at begins
      cases begins
  | proveCourses heads id =>
    rw [anew]
    rw [Prover.begins] at begins
    cases rung : d.ringUnit with
    | error f =>
      rw [rung] at begins
      cases begins
    | ok unit =>
      change (∃ r, Answer.report <$> d.proveCopiesOf unit heads = _) ∨
        ∃ m, Answer.report <$> d.proveCopiesOf unit heads = _
      obtain ⟨r, e⟩ | ⟨m, e⟩ := proveCopiesOf_cases unit heads
      · exact .inl ⟨r, by rw [e]; rfl⟩
      · exact .inr ⟨m, by rw [e]; rfl⟩
  | _ => cases begins

/-- Only a request which begins a proof is answered by a report. -/
theorem begins_of_anew {request : Request} {r : Report (Staged Row)}
    (reported : d.anew request = .ok (.report r)) : d.begins request := by
  cases request with
  | proveBlock block id => rfl
  | provePlainCourse =>
    rw [begins]
    cases rung : d.method.plainCourse (some d.options.settings) with
    | ok course => rfl
    | error f =>
      rw [anew, rung] at reported
      cases reported
  | proveCourses heads id =>
    obtain ⟨unit, rung, -⟩ := bind_eq_ok_iff.1 reported
    rw [begins, rung]
    rfl
  | unit | table | prepare =>
    obtain ⟨unit, -, h⟩ := bind_eq_ok_iff.1 reported
    cases h
  | forget => cases reported
  | clashingPairs heads order =>
    obtain ⟨unit, -, h⟩ := bind_eq_ok_iff.1 reported
    obtain ⟨pairs, -, h⟩ := bind_eq_ok_iff.1 h
    cases h

/-- Of the calls of a history only those which begin a proof are answered by a report. -/
theorem begins_of_report? {σ : Session d.method.stage} (kept : d.Kept σ) {taken : ℕ}
    {history : List Request} {c : Call d.method.stage} (mem : c ∈ d.calls taken history σ)
    (reported : c.report?.isSome) : d.begins c.request := by
  obtain ⟨r, told⟩ := Option.isSome_iff_exists.1 reported
  exact begins_of_anew
    ((outcome_of_mem_calls kept mem).symm.trans (Call.report?_eq_some_iff.1 told))

end Prover

end Campanology
