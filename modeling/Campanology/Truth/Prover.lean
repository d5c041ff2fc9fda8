import Campanology.Fault
import Campanology.TimeSheet
import Campanology.Truth.Quotients

/-!
# Proving many pieces of ringing of one method

A prover proves ringing of one method under fixed options. In the course of a *session* it keeps the
unit and its table once they are made, numbers the proofs that are given no name, and keeps a time
sheet if it has one. What it keeps only saves work: the reports are those of `Block.prove`,
`Block.proveHeads` and `QuotientTable.proveHeads`.

Each operation takes a session to an outcome and the session after it, which goes on whether or not
the outcome is a fault. The library reads no clock; what time a phase is to be charged with is the
`meter` of the prover.

* `Prover.unit` and `Prover.table` yield the unit and its table; `prepare` makes what the approach
  needs, and `Session.forget` drops it.
* `proveCourses`, `proveBlock` and `provePlainCourse` prove ringing, `clashingPairs` compares heads.
-/

namespace Campanology

/-- A method, the options for proving it, and the time charged to each phase. -/
structure Prover where
  method : Method
  options : Options
  meter : String → Seconds := fun _ => .zero

/-- What is kept from one proof to the next. -/
structure Session (s : Stage) where
  unit : Option (Block s) := none
  table : Option (QuotientTable s) := none
  /-- How many proofs were given a number. -/
  numbered : Nat := 0
  sheet : Option TimeSheet := none

/-- The outcome of an operation, and the session after it. -/
abbrev Prover.Outcome (d : Prover) (α : Type) :=
  Except Fault α × Session d.method.stage

namespace Session

variable {s : Stage}

/-- The session before any proof. -/
def start (sheet : Option TimeSheet) : Session s := { sheet }

/-- Writes to the time sheet, if there is one. -/
def note (σ : Session s) (write : TimeSheet → TimeSheet) : Session s :=
  { σ with sheet := σ.sheet.map write }

/-- Drops the unit and the table. -/
def forget (σ : Session s) : Session s := { σ with unit := none, table := none }

end Session

namespace Prover

variable (d : Prover)

/-- Charges a phase to a proof, or to preparation if no proof is named. -/
def charge (phase : String) (id : Option String) (σ : Session d.method.stage) :
    Session d.method.stage :=
  σ.note fun sheet => sheet.notePhase phase id (d.meter phase)

/-- A name for a proof which has none: the title of the method and a number. -/
def nameProof (id : Option String) (σ : Session d.method.stage) :
    String × Session d.method.stage :=
  match id.filter (· ≠ "") with
  | some id => (id, σ)
  | none =>
    let number := σ.numbered + 1
    (d.method.title ++ "#" ++ toString number, { σ with numbered := number })

/-- Keeps what a proof found. -/
def noteReport {α : Type} (id : String) (heads : Nat) (r : Report α)
    (σ : Session d.method.stage) : Session d.method.stage :=
  σ.note fun sheet => sheet.noteResult id r.approach.text heads r.examined (some r.isTrue)

/-- Ends a proof: charges its phase and, if there is a report, keeps what it found. -/
def conclude {α : Type} (phase id : String) (heads : Nat) (found : Except Fault (Report α))
    (σ : Session d.method.stage) : d.Outcome (Report α) :=
  let σ := d.charge phase (some id) σ
  match found with
  | .ok report => (.ok report, d.noteReport id heads report σ)
  | .error f => (.error f, σ)

/-! ## The unit and its table -/

/-- The unit that each head begins, rung anew. -/
def ringUnit : Except Fault (Block d.method.stage) :=
  orFault (d.method.unit d.options.unit (some d.options.settings))

/-- The unit, rung if it is not kept. -/
def unit (σ : Session d.method.stage) : d.Outcome (Block d.method.stage) :=
  match σ.unit with
  | some block => (.ok block, σ)
  | none =>
    let σ := d.charge "unit_generation" none σ
    match d.ringUnit with
    | .ok block => (.ok block, { σ with unit := some block })
    | .error f => (.error f, σ)

/-- The table of the unit, made if it is not kept. -/
def table (σ : Session d.method.stage) : d.Outcome (QuotientTable d.method.stage) :=
  match d.unit σ with
  | (.error f, σ) => (.error f, σ)
  | (.ok block, σ) =>
    match σ.table with
    | some table => (.ok table, σ)
    | none =>
      let table := QuotientTable.ofBlock block
      let σ := d.charge "table_build" none σ
      (.ok table, { σ.note (·.noteTable block.rows.length table.size) with table := some table })

/-- Makes what the approach needs. -/
def prepare (σ : Session d.method.stage) : d.Outcome Unit :=
  match d.options.approach with
  | .relational =>
    let (outcome, σ) := d.table σ
    (outcome.map fun _ => (), σ)
  | .direct =>
    let (outcome, σ) := d.unit σ
    (outcome.map fun _ => (), σ)

/-! ## Proofs -/

/-- Proves the rows of a block, of whatever stage. -/
def proveBlock (block : Staged Block) (id : Option String) (σ : Session d.method.stage) :
    d.Outcome (Report (Staged Row)) :=
  let (id, σ) := d.nameProof id σ
  let report := (block.val.prove d.options.stopAtFirst).staged
  d.conclude "block_check" id 1 (.ok report) σ

/-- Proves the plain course, which is rung for the purpose. -/
def provePlainCourse (σ : Session d.method.stage) : d.Outcome (Report (Staged Row)) :=
  match orFault (d.method.plainCourse (some d.options.settings)) with
  | .ok course => d.proveBlock (.of course) none σ
  | .error f => (.error f, σ)

/-- Proves the copies of the unit rung from heads, by the approach of the options. -/
def proveCourses (heads : List (Staged Row)) (id : Option String) (σ : Session d.method.stage) :
    d.Outcome (Report (Staged Row)) :=
  let (id, σ) := d.nameProof id σ
  match d.options.approach with
  | .relational =>
    match d.table σ with
    | (.error f, σ) => (.error f, σ)
    | (.ok table, σ) =>
      let found := orFault (table.proveHeads heads d.options.stopAtFirst)
      d.conclude "relational_check" id heads.length (found.map Report.staged) σ
  | .direct =>
    match d.unit σ with
    | (.error f, σ) => (.error f, σ)
    | (.ok block, σ) =>
      let found := orFault (block.proveHeads heads d.options.stopAtFirst)
      d.conclude "direct_check" id heads.length (found.map Report.staged) σ

/-- The pairs of heads whose copies of the unit share a row, found by as many workers as the options
allow, who take the first heads of pairs in the given order. -/
def clashingPairsIn (order : List Nat) (heads : List (Staged Row)) (σ : Session d.method.stage) :
    d.Outcome (List (Nat × Nat)) :=
  match d.table σ with
  | (.error f, σ) => (.error f, σ)
  | (.ok table, σ) =>
    let workers := d.options.maxWorkers.map Int.ofNat
    (orFault (table.clashingPairsAnyIn workers order heads), σ)

/-- The pairs of heads whose copies of the unit share a row. -/
def clashingPairs (heads : List (Staged Row)) (σ : Session d.method.stage) :
    d.Outcome (List (Nat × Nat)) :=
  d.clashingPairsIn [] heads σ

end Prover

end Campanology
