import Mathlib.Data.List.DropRight
import Campanology.Proofs.Refusals
import Campanology.Proofs.Truth.Accounts
import Campanology.Truth.Queue

/-!
# Batches of a queue

While candidates are entered in a queue and their reports collected, workers take turns, and other
things are done in the same session (`Queue.Event`). The reports may be collected when all is done,
or awaited one after another as far as the first fault (`Queue.await`).

A turn changes nothing of a candidate but that it is done (`Queue.Sound.take`), and what came of it
is what comes of it anew. So whichever turns were taken, a collection has the outcome of proving
anew what is in the queue, one after another (`Queue.Sound.step_of_collects`). What is in the queue
is told by the history alone: the candidates admitted since the queue was last settled, in the order
in which they came (`Queue.waiting`, `Queue.follows_after`). The number of candidates that have been
settled is never less than it was after a collection, so that no two collections are about the same
candidate (`Queue.length_admitted_le_settled`).
-/

namespace Campanology

variable {d : Prover}

namespace Candidate

/-- What came of the candidate is what comes of it anew. -/
def Right (d : Prover) (c : Candidate) : Prop :=
  ∀ found, c.result = some found → found = d.proveAnew c.heads

/-- The candidate when it has been proved. -/
def done (d : Prover) (c : Candidate) : Candidate := { c with result := some (d.proveAnew c.heads) }

theorem right_done (c : Candidate) : (c.done d).Right d := fun _ proved =>
  (Option.some.inj proved).symm

end Candidate

namespace Queue

variable {c : Candidate} {q : Queue} {σ : Session d.method.stage}

/-! ## Turns -/

/-- What comes of a candidate, which is proved now unless that has been done. -/
def outcome (d : Prover) (c : Candidate) (σ : Session d.method.stage) :
    d.Outcome (Report (Staged Row)) :=
  match c.result with
  | some found => (found, σ)
  | none => d.proveCourses c.heads c.id σ

theorem yields_outcome (right : c.Right d) (kept : d.Kept σ) :
    d.Yields (outcome d c σ) (d.proveAnew c.heads) := by
  rw [outcome]
  cases proved : c.result with
  | some found => exact ⟨right found proved, kept⟩
  | none => exact kept.yields_proveCourses c.heads c.id

/-- A worker keeps what comes of the candidate. -/
theorem proveOne_eq_outcome (c : Candidate) (σ : Session d.method.stage) :
    proveOne d c σ = ({ c with result := some (outcome d c σ).1 }, (outcome d c σ).2) := by
  obtain ⟨heads, id, result⟩ := c
  cases result <;> rfl

/-- What came of candidates of the queue is what comes of them anew, and the session keeps what
would be made. -/
structure Sound (d : Prover) (q : Queue) (σ : Session d.method.stage) : Prop where
  right : ∀ c ∈ q.candidates, c.Right d
  kept : d.Kept σ

namespace Sound

/-- A turn does nothing but that the candidate is done. -/
theorem take (h : Sound d q σ) (place : ℕ) :
    (take d place q σ).1 = { q with candidates := q.candidates.modify place (.done d) } ∧
      Sound d (take d place q σ).1 (take d place q σ).2 := by
  rw [Queue.take, List.modify_eq_set_getElem?]
  cases here : q.candidates[place]? with
  | none => exact ⟨rfl, h⟩
  | some c =>
    obtain ⟨anew, kept⟩ := yields_outcome (h.right c (List.mem_of_getElem? here)) h.kept
    simp only [proveOne_eq_outcome, anew]
    refine ⟨rfl, fun c' mem => ?_, kept⟩
    obtain mem | rfl := List.mem_or_eq_of_mem_set mem
    · exact h.right c' mem
    · exact c.right_done

theorem takeAll (h : Sound d q σ) (order : List ℕ) :
    (takeAll d order q σ).1 = { q with
        candidates := order.foldl (fun cs place => cs.modify place (.done d)) q.candidates } ∧
      Sound d (takeAll d order q σ).1 (takeAll d order q σ).2 := by
  induction order generalizing q σ with
  | nil => exact ⟨rfl, h⟩
  | cons place order ih =>
    obtain ⟨first, sound⟩ := h.take place
    obtain ⟨rest, sound'⟩ := ih sound
    refine ⟨rest.trans ?_, sound'⟩
    rw [first, List.foldl_cons]

end Sound

/-- After some turns those candidates are done at whose places the turns were. -/
theorem getElem?_foldl_modify (order : List ℕ) (cs : List Candidate) (k : ℕ) :
    (order.foldl (fun cs place => cs.modify place (.done d)) cs)[k]? =
      cs[k]?.map fun c => if k ∈ order then c.done d else c := by
  induction order generalizing cs with
  | nil => simp
  | cons place order ih =>
    rw [List.foldl_cons, ih, List.getElem?_modify, Option.map_eq_map, Option.map_map]
    refine congrArg (cs[k]?.map ·) (funext fun c => ?_)
    by_cases here : place = k
    · subst here
      -- whoever comes to the place again finds the candidate done
      by_cases again : place ∈ order <;> simp [again, Candidate.done]
    · simp [here, Ne.symm here]

theorem foldl_modify_range (cs : List Candidate) :
    (List.range cs.length).foldl (fun cs place => cs.modify place (.done d)) cs =
      cs.map (.done d) := by
  refine List.ext_getElem? fun k => ?_
  rw [getElem?_foldl_modify, List.getElem?_map]
  refine Option.map_congr fun c here => if_pos ?_
  exact List.mem_range.2 (List.getElem?_eq_some_iff.1 here).1

/-! ## Collections -/

/-- The reports on candidates, each awaited after the one before. The first fault is the outcome,
and the candidates behind it are not waited for. -/
def awaitAll (d : Prover) : List Candidate → Session d.method.stage →
    d.Outcome (List (Report (Staged Row)))
  | [], σ => (.ok [], σ)
  | c :: cs, σ =>
    match outcome d c σ with
    | (.error f, σ) => (.error f, σ)
    | (.ok r, σ) => d.answer (r :: ·) (awaitAll d cs σ)

/-- Awaits the reports in the order of the candidates. The queue is empty afterwards. -/
def await (d : Prover) (q : Queue) (σ : Session d.method.stage) :
    Except Fault (List (Report (Staged Row))) × Queue × Session d.method.stage :=
  let (reports, σ) := awaitAll d q.candidates σ
  (reports, { q with candidates := [] }, σ)

theorem yields_awaitAll {cs : List Candidate} (right : ∀ c ∈ cs, c.Right d) (kept : d.Kept σ) :
    d.Yields (awaitAll d cs σ) ((cs.map Candidate.heads).mapM d.proveAnew) := by
  induction cs generalizing σ with
  | nil => exact ⟨rfl, kept⟩
  | cons c cs ih =>
    rw [List.forall_mem_cons] at right
    rw [awaitAll, List.map_cons, List.mapM_cons]
    obtain ⟨f, σ', e, anew, kept'⟩ | ⟨r, σ', e, anew, kept'⟩ :=
      (yields_outcome right.1 kept).cases
    · rw [e, anew]
      exact ⟨rfl, kept'⟩
    · rw [e, anew]
      exact (ih right.2 kept').answer (r :: ·)

theorem Sound.collect (h : Sound d q σ) :
    (collect d q σ).1 = (q.candidates.map Candidate.heads).mapM d.proveAnew ∧
      d.Kept (collect d q σ).2.2 := by
  obtain ⟨done, sound⟩ := h.takeAll (List.range q.candidates.length)
  rw [foldl_modify_range] at done
  have results : q.candidates.filterMap (Candidate.result ∘ Candidate.done d) =
      q.candidates.map (d.proveAnew ∘ Candidate.heads) := congrFun List.filterMap_eq_map _
  refine ⟨?_, sound.kept⟩
  rw [Queue.collect]
  simp only [done, List.filterMap_map, results, List.mapM_map]
  rfl

/-! ## Histories -/

/-- What may happen while there is a queue. -/
inductive Event
  | enter (heads : List (Staged Row)) (id : Option String)
  /-- A worker takes the candidate at a place. -/
  | turn (place : ℕ)
  | collect
  | await
  | close
  /-- Something else is done in the session of the queue. -/
  | aside (request : Prover.Request)

namespace Event

/-- The candidate that is entered. -/
def heads? : Event → Option (List (Staged Row))
  | enter heads _ => some heads
  | _ => none

/-- Whether the reports are asked for. -/
def collects : Event → Bool
  | collect | await => true
  | _ => false

def closes : Event → Bool
  | close => true
  | _ => false

/-- Whether the queue is empty afterwards. -/
def settles (e : Event) : Bool := e.collects || e.closes

theorem settles_of_collects {e : Event} (collects : e.collects = true) : e.settles = true := by
  rw [settles, collects, Bool.true_or]

theorem not_closes_of_collects {e : Event} (collects : e.collects = true) : e.closes = false := by
  cases e with
  | close => cases collects
  | _ => rfl

end Event

/-- What comes of an event, if anything is asked for, and the queue and the session after it. An
event that is refused leaves them as they are. -/
def step (d : Prover) (e : Event) (s : Queue × Session d.method.stage) :
    Except Fault (List (Report (Staged Row))) × Queue × Session d.method.stage :=
  match e with
  | .enter heads id =>
    match s.1.enter heads id with
    | .ok q => (.ok [], q, s.2)
    | .error f => (.error f, s)
  | .turn place => (.ok [], take d place s.1 s.2)
  | .collect => collect d s.1 s.2
  | .await => await d s.1 s.2
  | .close => (.ok [], s.1.close, s.2)
  | .aside request => (.ok [], s.1, (d.perform request s.2).2)

/-- The queue and the session after a history. -/
def after (d : Prover) (history : List Event) (s : Queue × Session d.method.stage) :
    Queue × Session d.method.stage :=
  history.foldl (fun s e => (step d e s).2) s

/-- Whether the queue has been closed. -/
def closed (history : List Event) : Bool := history.any Event.closes

/-- The candidates that were admitted: those entered before the queue was closed. -/
def admitted (history : List Event) : List (List (Staged Row)) :=
  (history.takeWhile (!·.closes)).filterMap Event.heads?

/-- How many of them were admitted before the queue was last settled. -/
def settled (history : List Event) : ℕ := (admitted (history.rdropWhile (!·.settles))).length

/-- The candidates that were admitted since then, in the order in which they came. -/
def waiting (history : List Event) : List (List (Staged Row)) :=
  (admitted history).drop (settled history)

variable {history : List Event} {e : Event}

/-! ## What a history tells -/

theorem closed_concat : closed (history ++ [e]) = (closed history || e.closes) := by
  simp [closed]

theorem closed_concat_of_not_closes (goesOn : e.closes = false) :
    closed (history ++ [e]) = closed history := by
  rw [closed_concat, goesOn, Bool.or_false]

theorem admitted_concat_of_closed (done : closed history = true) :
    admitted (history ++ [e]) = admitted history := by
  obtain ⟨c, mem, closes⟩ := List.any_eq_true.1 done
  have part : (history.takeWhile (!·.closes)).length ≠ history.length := by
    intro whole
    have all := List.takeWhile_eq_self_iff.1 ((List.takeWhile_prefix _).eq_of_length whole)
    simpa [closes] using all c mem
  rw [admitted, List.takeWhile_append, if_neg part, admitted]

theorem admitted_concat_of_open (open_ : closed history = false) :
    admitted (history ++ [e]) = admitted history ++ e.heads?.toList := by
  have none : ∀ x ∈ history, (!x.closes) = true := by simpa [closed] using open_
  rw [admitted, admitted, List.takeWhile_append_of_pos none, List.takeWhile_eq_self_iff.2 none,
    List.filterMap_append]
  cases e <;> rfl

theorem length_admitted_le_concat :
    (admitted history).length ≤ (admitted (history ++ [e])).length := by
  cases done : closed history with
  | true => rw [admitted_concat_of_closed done]
  | false => simp [admitted_concat_of_open done]

theorem settled_concat_of_settles (settles : e.settles = true) :
    settled (history ++ [e]) = (admitted (history ++ [e])).length := by
  rw [settled, List.rdropWhile_concat_neg]
  simpa using settles

theorem settled_concat_of_not_settles (goesOn : e.settles = false) :
    settled (history ++ [e]) = settled history := by
  rw [settled, List.rdropWhile_concat_pos, settled]
  simpa using goesOn

theorem settled_le : settled history ≤ (admitted history).length := by
  induction history using List.reverseRecOn with
  | nil => exact le_rfl
  | append_singleton history e ih =>
    cases settles : e.settles with
    | true => exact (settled_concat_of_settles settles).le
    | false =>
      rw [settled_concat_of_not_settles settles]
      exact ih.trans length_admitted_le_concat

/-- What was admitted before the queue is settled is settled from then on. -/
theorem length_admitted_le_settled (settles : e.settles = true) (later : List Event) :
    (admitted history).length ≤ settled (history ++ e :: later) := by
  induction later using List.reverseRecOn with
  | nil =>
    rw [settled_concat_of_settles settles]
    exact length_admitted_le_concat
  | append_singleton later e' ih =>
    rw [List.append_cons, ← List.append_assoc, ← List.append_cons]
    -- what comes later settles all that was admitted by then, or nothing
    cases settles' : e'.settles with
    | true =>
      rw [settled_concat_of_settles settles']
      exact ih.trans (settled_le.trans length_admitted_le_concat)
    | false => rwa [settled_concat_of_not_settles settles']

theorem waiting_concat_of_settles (settles : e.settles = true) : waiting (history ++ [e]) = [] := by
  rw [waiting, settled_concat_of_settles settles, List.drop_length]

theorem waiting_concat_of_open (open_ : closed history = false) (goesOn : e.settles = false) :
    waiting (history ++ [e]) = waiting history ++ e.heads?.toList := by
  rw [waiting, settled_concat_of_not_settles goesOn, admitted_concat_of_open open_,
    List.drop_append_of_le_length settled_le, waiting]

theorem waiting_of_closed (done : closed history = true) : waiting history = [] := by
  induction history using List.reverseRecOn with
  | nil => cases done
  | append_singleton history e ih =>
    cases settles : e.settles with
    | true => exact waiting_concat_of_settles settles
    | false =>
      have before : closed history = true := by
        simpa [closed_concat, (Bool.or_eq_false_iff.1 settles).2] using done
      rw [waiting, settled_concat_of_not_settles settles, admitted_concat_of_closed before]
      exact ih before

theorem waiting_concat_of_heads_none (goesOn : e.settles = false) (none : e.heads? = none) :
    waiting (history ++ [e]) = waiting history := by
  cases done : closed history with
  | true =>
    rw [waiting_of_closed done, waiting_of_closed (by rw [closed_concat, done, Bool.true_or])]
  | false => rw [waiting_concat_of_open done goesOn, none, Option.toList_none, List.append_nil]

/-! ## The queue after a history -/

variable {s : Queue × Session d.method.stage}

theorem map_heads_modify (cs : List Candidate) (place : ℕ) :
    (cs.modify place (.done d)).map Candidate.heads = cs.map Candidate.heads := by
  refine List.ext_getElem? fun k => ?_
  rw [List.getElem?_map, List.getElem?_modify, List.getElem?_map, Option.map_eq_map,
    Option.map_map]
  refine congrArg (cs[k]?.map ·) (funext fun c => ?_)
  by_cases here : place = k
  · simp [here, Candidate.done]
  · simp [here]

/-- The queue is as the history tells: it is open until it is closed, and has the candidates that
wait. -/
structure Follows (d : Prover) (history : List Event) (s : Queue × Session d.method.stage) :
    Prop where
  isOpen : s.1.isOpen = !closed history
  heads : s.1.candidates.map Candidate.heads = waiting history
  sound : Sound d s.1 s.2

theorem sound_of_kept (kept : d.Kept σ) (isOpen : Bool) : Sound d ⟨[], isOpen⟩ σ :=
  ⟨fun _ mem => absurd mem List.not_mem_nil, kept⟩

/-- Whichever way the reports are asked for, the outcome is that of proving anew what is in the
queue, and the queue is empty afterwards. -/
theorem Sound.step_of_collects (h : Sound d s.1 s.2) (collects : e.collects = true) :
    (step d e s).1 = (s.1.candidates.map Candidate.heads).mapM d.proveAnew ∧
      (step d e s).2.1 = { s.1 with candidates := [] } ∧ d.Kept (step d e s).2.2 := by
  cases e with
  | collect => exact ⟨h.collect.1, rfl, h.collect.2⟩
  | await =>
    have yields := yields_awaitAll h.right h.kept
    exact ⟨yields.fst, rfl, yields.kept⟩
  | _ => cases collects

theorem step_enter_of_open (open_ : s.1.isOpen = true) (heads : List (Staged Row))
    (id : Option String) : step d (.enter heads id) s =
      (.ok [], { s.1 with candidates := s.1.candidates ++ [{ heads, id }] }, s.2) := by
  rw [step, Queue.enter, if_pos open_]

theorem step_enter_of_closed (done : s.1.isOpen = false) (heads : List (Staged Row))
    (id : Option String) : step d (.enter heads id) s = (.error .queueClosed, s) := by
  rw [step, Queue.enter, done]
  rfl

namespace Follows

variable (h : Follows d history s)

include h

theorem step_of_collects (collects : e.collects = true) :
    Follows d (history ++ [e]) (step d e s).2 := by
  obtain ⟨-, empty, kept⟩ := h.sound.step_of_collects collects
  refine ⟨?_, ?_, ?_⟩
  · rw [empty, closed_concat_of_not_closes (Event.not_closes_of_collects collects)]
    exact h.isOpen
  · rw [empty, waiting_concat_of_settles (Event.settles_of_collects collects)]
    rfl
  · rw [empty]
    exact sound_of_kept kept s.1.isOpen

theorem step_enter (heads : List (Staged Row)) (id : Option String) :
    Follows d (history ++ [.enter heads id]) (step d (.enter heads id) s).2 := by
  have same : closed (history ++ [.enter heads id]) = closed history :=
    closed_concat_of_not_closes rfl
  cases done : closed history with
  | true =>
    rw [step_enter_of_closed (by rw [h.isOpen, done]; rfl)]
    refine ⟨?_, ?_, h.sound⟩
    · rw [h.isOpen, same]
    · rw [h.heads, waiting_of_closed done, waiting_of_closed (same.trans done)]
  | false =>
    rw [step_enter_of_open (by rw [h.isOpen, done]; rfl)]
    refine ⟨?_, ?_, ⟨?_, h.sound.kept⟩⟩
    · exact h.isOpen.trans (by rw [same])
    · rw [waiting_concat_of_open done rfl, ← h.heads]
      exact List.map_append
    · simp only [List.forall_mem_append, List.forall_mem_singleton]
      exact ⟨h.sound.right, fun _ proved => by cases proved⟩

/-- **The queue goes on to follow the history**, whatever happens next. -/
theorem step (e : Event) : Follows d (history ++ [e]) (step d e s).2 := by
  cases e with
  | enter heads id => exact h.step_enter heads id
  | turn place =>
    obtain ⟨taken, sound⟩ := h.sound.take place
    refine ⟨?_, ?_, sound⟩
    · rw [Queue.step, taken, closed_concat_of_not_closes rfl]
      exact h.isOpen
    · rw [Queue.step, taken, waiting_concat_of_heads_none rfl rfl]
      exact (map_heads_modify ..).trans h.heads
  | collect => exact h.step_of_collects rfl
  | await => exact h.step_of_collects rfl
  | close =>
    refine ⟨?_, ?_, sound_of_kept h.sound.kept false⟩
    · rw [closed_concat, Event.closes, Bool.or_true]
      rfl
    · rw [waiting_concat_of_settles rfl]
      rfl
  | aside request =>
    refine ⟨?_, ?_, ⟨h.sound.right, (Prover.yields_perform h.sound.kept request).kept⟩⟩
    · rw [closed_concat_of_not_closes rfl]
      exact h.isOpen
    · rw [waiting_concat_of_heads_none rfl rfl]
      exact h.heads

end Follows

theorem follows_after (kept : d.Kept σ) (history : List Event) :
    Follows d history (after d history ({}, σ)) := by
  induction history using List.reverseRecOn with
  | nil => exact ⟨rfl, rfl, sound_of_kept kept true⟩
  | append_singleton history e ih =>
    rw [after, List.foldl_concat]
    exact ih.step e

theorem start_eq_ok {maxWorkers : ℤ} {q : Queue} (started : Queue.start maxWorkers = .ok q) :
    q = {} := by
  rw [Queue.start] at started
  split at started
  · exact (Except.ok.inj started).symm
  · cases started

/-- **Every report is collected once, and in order.** Whatever happened to a queue, in whichever
turns its workers proved the candidates and whatever else was done in its session, what is asked for
next are the reports on the candidates that were admitted since the queue was last settled: the
reports which another new session yields, in the order of the candidates, or the fault of the first
candidate that has one. Either way nothing is left in the queue, and what is asked for later begins
behind those candidates. A closed queue refuses candidates, which changes nothing, and has no
reports. -/
theorem reports_collected_once (d : Prover) (maxWorkers : ℤ) (q : Queue)
    (started : Queue.start maxWorkers = .ok q) (sheet other : Option TimeSheet)
    (earlier : List Prover.Request) (history : List Event) :
    let alone heads := (d.proveCourses heads none (.start other)).1
    let s := after d history (q, d.after earlier (.start sheet))
    s.1.candidates.map Candidate.heads = waiting history ∧
    (∀ e : Event, e.collects = true →
      (∀ reports, List.Forall₂ (fun heads r => alone heads = .ok r) (waiting history) reports →
        (step d e s).1 = .ok reports) ∧
      (∀ (k : ℕ) heads f, (waiting history)[k]? = some heads → alone heads = .error f →
        (∀ i < k, ∀ heads, (waiting history)[i]? = some heads → ∃ r, alone heads = .ok r) →
        (step d e s).1 = .error f) ∧
      (step d e s).2.1.candidates = [] ∧
      ∀ later, (admitted history).length ≤ settled (history ++ e :: later)) ∧
    ∀ heads id,
      (closed history = false → step d (.enter heads id) s =
        (.ok [], { s.1 with candidates := s.1.candidates ++ [{ heads, id }] }, s.2)) ∧
      (closed history = true → step d (.enter heads id) s = (.error .queueClosed, s) ∧
        ∀ e : Event, e.collects = true → (step d e s).1 = .ok []) := by
  intro alone s
  obtain rfl := start_eq_ok started
  have kept : d.Kept (d.after earlier (.start sheet)) :=
    Prover.kept_after (Prover.kept_start sheet) earlier
  have follows : Follows d history s := follows_after kept history
  have anew : ∀ heads, alone heads = d.proveAnew heads := fun heads =>
    Prover.fst_proveCourses (Prover.kept_start other) heads none
  have outcome : ∀ e : Event, e.collects = true →
      (step d e s).1 = (waiting history).mapM d.proveAnew := fun e collects => by
    rw [← follows.heads]
    exact (follows.sound.step_of_collects collects).1
  simp only [anew]
  refine ⟨follows.heads, fun e collects => ?_, fun heads id => ⟨fun open_ => ?_, fun done => ?_⟩⟩
  · refine ⟨fun reports ok => ?_, fun k heads f here refused before => ?_, ?_, ?_⟩
    · rw [outcome e collects]
      exact mapM_eq_ok_iff.2 ok
    · rw [outcome e collects]
      exact mapM_eq_error_of_first here refused before
    · rw [(follows.sound.step_of_collects collects).2.1]
    · exact length_admitted_le_settled (Event.settles_of_collects collects)
  · exact step_enter_of_open (by rw [follows.isOpen, open_]; rfl) heads id
  · refine ⟨step_enter_of_closed (by rw [follows.isOpen, done]; rfl) heads id, fun e collects => ?_⟩
    rw [outcome e collects, waiting_of_closed done]
    rfl

/-- Plain hunt at three bells, with a candidate that is refused for its stage in the first batch. -/
theorem reports_collected_once_three_bells :
    let s : Stage := ⟨3, by decide, by decide⟩
    let wide : Stage := ⟨6, by decide, by decide⟩
    let m : Method :=
      ⟨"Plain Hunt", s, [.cross s, .ofPaired s (· = 0) (by decide)], {}, none, by decide⟩
    let d : Prover := { method := m, options := ⟨.direct, .lead, true, none, .standard, nofun⟩ }
    let one : List (Staged Row) := [.of (.rounds s)]
    let both : List (Staged Row) := [.of (.rounds s), .of (.backrounds s)]
    let other : List (Staged Row) := [.of (.rounds wide)]
    let alone heads := (d.proveCourses heads none (.start none)).1
    let first : List Event := [.enter one none, .turn 0, .enter other none, .enter both none]
    let second : List Event :=
      first ++ [.await, .enter both (some "a"), .enter one none, .turn 1]
    let last : List Event := second ++ [.collect, .enter one none, .close]
    let state history := after d history ({}, .start none)
    (step d .await (state first)).1 = .error (.mismatch ⟨s, wide, "check_heads"⟩) ∧
    (∃ r r', alone both = .ok r' ∧ alone one = .ok r ∧
      (step d .collect (state second)).1 = .ok [r', r]) ∧
    step d (.enter both none) (state last) = (.error .queueClosed, state last) ∧
    (step d .collect (state last)).1 = .ok [] := by
  intro s wide m d one both other alone first second last state
  obtain ⟨r, one_ok⟩ : ∃ r, alone one = .ok r := ⟨_, rfl⟩
  obtain ⟨r', both_ok⟩ : ∃ r', alone both = .ok r' := ⟨_, rfl⟩
  have refused : alone other = .error (.mismatch ⟨s, wide, "check_heads"⟩) := rfl
  have told history := reports_collected_once d 2 {} rfl none none [] history
  obtain ⟨-, failed, -⟩ := told first
  obtain ⟨-, proved, -⟩ := told second
  obtain ⟨-, -, shut⟩ := told last
  have ⟨closed, empty⟩ := (shut both none).2 rfl
  refine ⟨?_, ⟨r, r', both_ok, one_ok, ?_⟩, closed, empty .collect rfl⟩
  · refine (failed .await rfl).2.1 1 other _ rfl refused fun i hi heads here => ?_
    obtain rfl : i = 0 := by omega
    obtain rfl : one = heads := Option.some.inj here
    exact ⟨r, one_ok⟩
  · exact (proved .collect rfl).1 [r', r] (.cons both_ok (.cons one_ok .nil))

end Queue

end Campanology
