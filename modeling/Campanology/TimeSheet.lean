import Campanology.Ranking
import Campanology.Register
import Campanology.Seconds
import Campanology.Text.Fixed

/-!
# Time sheets

A time sheet keeps how long the phases of a run of proofs took, in seconds. Phases of preparation
add up; a phase of a proof is kept with that proof, under its name, and replaces an earlier phase of
the same name there. With each proof the sheet also keeps how much was examined and the verdict.
The sheet takes all numbers on trust, negative ones too.

* `addPreparation`, `noteProof`, `noteTable` and `noteResult` write.
* `slowest` ranks the proofs, `rate` compares the work with the time.
* `summary` is the sheet in words.
-/

namespace Campanology

/-- What is known of one proof. -/
structure ProofEntry where
  /-- Seconds by phase. -/
  durations : Register String Seconds := .empty
  /-- The approach in writing; empty until the proof is done. -/
  approach : String := ""
  heads : Int := 0
  /-- How many rows or pairs of heads were looked at. -/
  examined : Int := 0
  /-- The verdict, once the proof is done. -/
  verdict : Option Bool := none
  deriving DecidableEq

/-- The time that a proof took. -/
def ProofEntry.total (e : ProofEntry) : Seconds := .sum e.durations.values

/-- A time sheet. -/
structure TimeSheet where
  /-- Seconds by phase of preparation. -/
  preparation : Register String Seconds := .empty
  proofs : Register String ProofEntry := .empty
  unitLength : Option Int := none
  tableSize : Option Int := none
  deriving DecidableEq

namespace TimeSheet

/-- The sheet with nothing on it. -/
def empty : TimeSheet := {}

/-! ## Writing -/

/-- Adds to a phase of preparation. -/
def addPreparation (t : TimeSheet) (phase : String) (time : Seconds) : TimeSheet :=
  { t with preparation := t.preparation.alter phase fun before => before.getD .zero + time }

/-- Keeps a phase of a proof. -/
def noteProof (t : TimeSheet) (id phase : String) (time : Seconds) : TimeSheet :=
  { t with proofs := t.proofs.alter id fun before =>
      let e := before.getD {}
      { e with durations := e.durations.put phase time } }

/-- Keeps a phase with a proof, or as preparation if no proof is named. -/
def notePhase (t : TimeSheet) (phase : String) (id : Option String) (time : Seconds) : TimeSheet :=
  match id with
  | some "" | none => t.addPreparation phase time
  | some id => t.noteProof id phase time

/-- Keeps the size of the table and of the unit it was made of. -/
def noteTable (t : TimeSheet) (unitLength tableSize : Int) : TimeSheet :=
  { t with unitLength := some unitLength, tableSize := some tableSize }

/-- Keeps the work and the verdict of a proof. -/
def noteResult (t : TimeSheet) (id approach : String) (heads examined : Int)
    (verdict : Option Bool) : TimeSheet :=
  { t with proofs := t.proofs.alter id fun before =>
      { before.getD {} with approach, heads, examined, verdict } }

/-! ## Reading -/

/-- The time that all proofs took. -/
def proofTime (t : TimeSheet) : Seconds := .sum (t.proofs.values.map ProofEntry.total)

/-- How much all proofs looked at. -/
def totalExamined (t : TimeSheet) : Int := t.proofs.values.foldl (fun n e => n + e.examined) 0

/-- The proofs whose verdict is false. -/
def falseProofs (t : TimeSheet) : List String :=
  (t.proofs.entries.filter fun e => e.2.verdict = some false).map Prod.fst

/-- How much was looked at in one second, zero if no time was taken; none if the count is beyond all
binary64 numbers. -/
def rate (t : TimeSheet) : Option Float :=
  let elapsed := t.proofTime.value
  if elapsed > 0 then (Text.ofInt? t.totalExamined).map (· / elapsed) else some 0

/-- The proofs, slowest first, those of equal time in the order in which they came. -/
def ranked (t : TimeSheet) : List (String × ProofEntry) :=
  Ranking.rank (fun a b => a.2.total.value < b.2.total.value) t.proofs.entries

/-- The first `n` of the ranking; a negative number leaves out that many at the end. -/
def slowest (t : TimeSheet) (n : Int) : List (String × ProofEntry) :=
  let ranking := t.ranked
  ranking.take (if n < 0 then n + ranking.length else n).toNat

/-! ## The summary -/

/-- One phase of preparation. -/
def preparationLine (phase : String × Seconds) : String :=
  "  " ++ Text.padRight 20 phase.1 ++ " " ++ Text.fixed 3 phase.2.value ++ "s"

/-- A verdict in words. -/
def verdictText : Option Bool → String
  | some true => "true"
  | some false => "false"
  | none => "unfinished"

/-- One proof. -/
def proofLine (proof : String × ProofEntry) : String :=
  let (id, e) := proof
  s!"  {id}: {Text.fixed 4 e.total.value}s, {e.heads} heads, {e.examined} checked, " ++
    verdictText e.verdict

/-- All proofs together, with their rate. -/
def totalLine (t : TimeSheet) (rate : Float) : String :=
  s!"  {t.proofs.size} checks, {t.falseProofs.length} false, {t.totalExamined} rows/pairs in " ++
    s!"{Text.fixed 3 t.proofTime.value}s ({Text.fixed 0 rate}/s)"

/-- The sheet in words; none if it has proofs whose rate has no number. -/
def summary (t : TimeSheet) : Option String := do
  let phases := t.preparation.entries.mergeSort fun a b => a.1 ≤ b.1
  let table := t.tableSize.toList.map fun size =>
    s!"  table: {size} false heads over {t.unitLength.getD 0} unit rows"
  let proofs ← if t.proofs.size = 0 then some [] else do
    let rate ← t.rate
    some ([t.totalLine rate, "Slowest checks:"] ++ (t.slowest 3).map proofLine)
  let lines := phases.map preparationLine ++ table ++ proofs
  return "\n".intercalate (["", "=== Truth Check Timing ==="] ++ lines ++ [""])

end TimeSheet

end Campanology
