import Campanology.Truth.Prover

/-!
# A queue of candidates

Candidates, each a list of heads, are entered in a queue and proved by workers in one session of a
prover. The workers may take the candidates in any order; a proof is one step of the session. The
reports are collected in the order in which the candidates were entered, whichever was done first.

* `enter` puts a candidate into the queue, and `take` lets a worker prove the one at a place of it.
* `collect` lets the workers finish, and yields the reports, or the first fault among them.
* `close` gives up what has not been done, and admits no more candidates.
* `Prover.proveManyIn` proves a list of candidates with workers that take them in a given order.
-/

namespace Campanology

/-- A candidate, the name of its proof, and what came of the proof once it is done. -/
structure Candidate where
  heads : List (Staged Row)
  id : Option String
  result : Option (Except Fault (Report (Staged Row))) := none

/-- The candidates whose reports have not been collected, in the order in which they came. -/
structure Queue where
  candidates : List Candidate := []
  isOpen : Bool := true

namespace Queue

/-- A new queue for a number of workers. -/
def start (maxWorkers : Int) : Except WorkersFault Queue :=
  if 1 ≤ maxWorkers then .ok {} else .error ⟨maxWorkers⟩

/-- Enters a candidate. -/
def enter (q : Queue) (heads : List (Staged Row)) (id : Option String) : Except Fault Queue :=
  if q.isOpen then .ok { q with candidates := q.candidates ++ [{ heads, id }] }
  else .error .queueClosed

/-- Lets a worker prove a candidate, unless that has been done. -/
def proveOne (d : Prover) (c : Candidate) (σ : Session d.method.stage) :
    Candidate × Session d.method.stage :=
  match c.result with
  | some _ => (c, σ)
  | none =>
    let (outcome, σ) := d.proveCourses c.heads c.id σ
    ({ c with result := some outcome }, σ)

/-- Lets a worker take the candidate at a place of the queue. -/
def take (d : Prover) (place : Nat) (q : Queue) (σ : Session d.method.stage) :
    Queue × Session d.method.stage :=
  match q.candidates[place]? with
  | none => (q, σ)
  | some c =>
    let (c, σ) := proveOne d c σ
    ({ q with candidates := q.candidates.set place c }, σ)

/-- Lets workers take candidates in the given order of places. -/
def takeAll (d : Prover) (order : List Nat) (q : Queue) (σ : Session d.method.stage) :
    Queue × Session d.method.stage :=
  order.foldl (fun (q, σ) place => take d place q σ) (q, σ)

/-- Lets workers finish what is left and yields the reports in the order of the candidates, or the
fault of the first candidate that has one. The queue is empty afterwards. -/
def collect (d : Prover) (q : Queue) (σ : Session d.method.stage) :
    Except Fault (List (Report (Staged Row))) × Queue × Session d.method.stage :=
  let (done, σ) := takeAll d (List.range q.candidates.length) q σ
  let results := done.candidates.filterMap Candidate.result
  (results.mapM id, { q with candidates := [] }, σ)

/-- Gives up what is left and admits no more candidates. -/
def close (q : Queue) : Queue := { q with candidates := [], isOpen := false }

end Queue

namespace Prover

/-- Proves candidates by workers that take them in the given order of places, and then those which
it leaves out in the order of the candidates. -/
def proveManyIn (d : Prover) (order : List Nat) (candidates : List (List (Staged Row)))
    (maxWorkers : Int) (σ : Session d.method.stage) : d.Outcome (List (Report (Staged Row))) :=
  match d.prepare σ with
  | (.error f, σ) => (.error f, σ)
  | (.ok _, σ) =>
    match orFault (Queue.start maxWorkers) with
    | .error f => (.error f, σ)
    | .ok q =>
      let q := { q with candidates := candidates.map fun heads => { heads, id := none } }
      let (q, σ) := q.takeAll d order σ
      let (reports, _, σ) := q.collect d σ
      (reports, σ)

/-- Proves candidates one after another. -/
def proveMany (d : Prover) (candidates : List (List (Staged Row))) (maxWorkers : Int)
    (σ : Session d.method.stage) : d.Outcome (List (Report (Staged Row))) :=
  d.proveManyIn [] candidates maxWorkers σ

end Prover

end Campanology
