import Mathlib.Data.List.Perm.Basic
import Campanology.Proofs.Refusals
import Campanology.Proofs.Truth.Accounts
import Campanology.Truth.Queue

/-!
# Candidates proved in any order

Workers that take candidates from a queue in some order do no more than prove them one after another
in that order, each once: to take a candidate that is done, or a place where there is none, changes
nothing (`Queue.Taken`). What comes of a proof is kept at the place of its candidate, and is what
there is without a session. So when all are done, the queue has for every candidate the outcome of
proving it alone (`Prover.exists_turns_of_proveManyIn`), whatever turns were taken, and only the
order of the entries on the time sheet tells which.

The numbers of proofs are taken in the order of the turns. As names are made of the numbers alone,
the names on the sheet are the same for every order, and the work kept under them is the same but
for its order (`Prover.proveManyIn_ignores_order`).
-/

namespace Campanology

/-! ## Places of a list -/

theorem filterMap_getElem?_range {α : Type} (xs : List α) :
    (List.range xs.length).filterMap (xs[·]?) = xs := by
  induction xs with
  | nil => rfl
  | cons x xs ih =>
    rw [List.length_cons, List.range_succ_eq_map, List.filterMap_cons_some List.getElem?_cons_zero,
      List.filterMap_map]
    exact congrArg (x :: ·) ih

/-- Each place taken once, a list comes out in another order. -/
theorem perm_filterMap_getElem? {α : Type} (xs : List α) {turns : List ℕ}
    (perm : turns.Perm (List.range xs.length)) : (turns.filterMap (xs[·]?)).Perm xs :=
  (perm.filterMap _).trans (.of_eq (filterMap_getElem?_range xs))

variable {d : Prover}

namespace Queue

/-! ## Turns -/

/-- The session after proofs of candidates one after another. -/
def sessionAfter (sets : List (List (Staged Row))) (σ : Session d.method.stage) :
    Session d.method.stage :=
  sets.foldl (fun σ heads => (d.proveCourses heads none σ).2) σ

/-- The candidates of a queue, those at the places of `turns` being done. -/
def doneAt (d : Prover) (sets : List (List (Staged Row))) (turns : List ℕ) : List Candidate :=
  sets.zipIdx.map fun x => ⟨x.1, none, if x.2 ∈ turns then some (d.proveAnew x.1) else none⟩

/-- The candidates at the places of `turns` have been proved, one after another in that order from
the session `σ₀` on, and the others have not. -/
structure Taken (d : Prover) (sets : List (List (Staged Row))) (σ₀ : Session d.method.stage)
    (turns : List ℕ) (q : Queue) (σ : Session d.method.stage) : Prop where
  nodup : turns.Nodup
  within : ∀ k ∈ turns, k < sets.length
  candidates : q.candidates = doneAt d sets turns
  session : σ = sessionAfter (turns.filterMap (sets[·]?)) σ₀
  kept : d.Kept σ

variable {sets : List (List (Staged Row))} {σ₀ σ : Session d.method.stage} {turns : List ℕ}
  {q : Queue}

theorem sessionAfter_concat (sets : List (List (Staged Row))) (heads : List (Staged Row))
    (σ : Session d.method.stage) :
    sessionAfter (sets ++ [heads]) σ = (d.proveCourses heads none (sessionAfter sets σ)).2 :=
  List.foldl_concat ..

theorem getElem?_doneAt (place : ℕ) : (doneAt d sets turns)[place]? = sets[place]?.map fun heads =>
    ⟨heads, none, if place ∈ turns then some (d.proveAnew heads) else none⟩ := by
  rw [doneAt, List.getElem?_map, List.getElem?_zipIdx, Option.map_map]
  simp only [Nat.zero_add]
  rfl

/-- With one more turn one more candidate is done. -/
theorem set_doneAt {place : ℕ} {heads : List (Staged Row)} (here : sets[place]? = some heads) :
    (doneAt d sets turns).set place ⟨heads, none, some (d.proveAnew heads)⟩ =
      doneAt d sets (turns ++ [place]) := by
  refine List.ext_getElem? fun k => ?_
  rw [getElem?_doneAt, List.getElem?_set]
  by_cases same : place = k
  · subst same
    have room : place < (doneAt d sets turns).length := by
      simpa [doneAt] using (List.getElem?_eq_some_iff.1 here).1
    simp [room, here]
  · simp [same, getElem?_doneAt, Ne.symm same]

namespace Taken

variable (h : Taken d sets σ₀ turns q σ)

include h

theorem getElem?_candidates (place : ℕ) : q.candidates[place]? = sets[place]?.map fun heads =>
    ⟨heads, none, if place ∈ turns then some (d.proveAnew heads) else none⟩ := by
  rw [h.candidates, getElem?_doneAt]

/-- A place where there is no candidate, or one that is done, changes nothing. -/
theorem take_of_done {place : ℕ} (done : place < sets.length → place ∈ turns) :
    take d place q σ = (q, σ) := by
  have here := h.getElem?_candidates place
  rw [take]
  cases there : sets[place]? with
  | none =>
    rw [there, Option.map_none] at here
    rw [here]
  | some heads =>
    rw [there, Option.map_some, if_pos (done (List.getElem?_eq_some_iff.1 there).1)] at here
    obtain ⟨lt, e⟩ := List.getElem?_eq_some_iff.1 here
    have same := List.set_getElem_self lt
    rw [e] at same
    simp only [here, proveOne, same]

/-- A candidate that waits is proved next. -/
theorem take_of_waiting {place : ℕ} (room : place < sets.length) (waiting : place ∉ turns) :
    Taken d sets σ₀ (turns ++ [place]) (take d place q σ).1 (take d place q σ).2 := by
  have there : sets[place]? = some sets[place] := List.getElem?_eq_getElem room
  have here := h.getElem?_candidates place
  rw [there, Option.map_some, if_neg waiting] at here
  have step : take d place q σ =
      ({ q with candidates := doneAt d sets (turns ++ [place]) },
        (d.proveCourses sets[place] none σ).2) := by
    rw [Queue.take, here]
    simp only [proveOne, Prover.fst_proveCourses h.kept]
    rw [h.candidates, set_doneAt there]
  rw [step]
  refine ⟨?_, ?_, rfl, ?_, (h.kept.yields_proveCourses _ _).kept⟩
  · exact h.nodup.append (List.nodup_singleton _) (by simpa using waiting)
  · simpa [or_imp, forall_and, room] using h.within
  · rw [List.filterMap_append, List.filterMap_cons_some there, List.filterMap_nil,
      sessionAfter_concat, ← h.session]

/-- Whatever a worker takes, the candidates of some turns are done. -/
theorem take (place : ℕ) : ∃ turns',
    Taken d sets σ₀ turns' (take d place q σ).1 (take d place q σ).2 ∧
    turns ⊆ turns' ∧ (place < sets.length → place ∈ turns') := by
  by_cases done : place < sets.length → place ∈ turns
  · exact ⟨turns, (h.take_of_done done).symm ▸ h, List.Subset.refl _, done⟩
  · rw [Classical.not_imp] at done
    exact ⟨turns ++ [place], h.take_of_waiting done.1 done.2, List.subset_append_left _ _,
      fun _ => by simp⟩

/-- Whatever order workers take candidates in, those of some turns are done, among them the ones
that were taken. -/
theorem takeAll (order : List ℕ) : ∃ turns',
    Taken d sets σ₀ turns' (takeAll d order q σ).1 (takeAll d order q σ).2 ∧
    turns ⊆ turns' ∧ ∀ place ∈ order, place < sets.length → place ∈ turns' := by
  induction order generalizing turns q σ with
  | nil => exact ⟨turns, h, List.Subset.refl _, by simp⟩
  | cons place order ih =>
    obtain ⟨turns', first, kept, done⟩ := h.take place
    obtain ⟨turns'', rest, kept', all⟩ := ih first
    refine ⟨turns'', rest, List.Subset.trans kept kept', ?_⟩
    rw [List.forall_mem_cons]
    exact ⟨fun room => kept' (done room), all⟩

end Taken

theorem taken_nil (kept : d.Kept σ) :
    Taken d sets σ [] ⟨sets.map fun heads => ⟨heads, none, none⟩, true⟩ σ where
  nodup := List.nodup_nil
  within := by simp
  candidates := by
    nth_rewrite 1 [← List.zipIdx_map_fst 0 sets]
    rw [doneAt, List.map_map]
    rfl
  session := rfl
  kept := kept

theorem Taken.length_candidates (h : Taken d sets σ₀ turns q σ) :
    q.candidates.length = sets.length := by
  rw [h.candidates, doneAt, List.length_map, List.length_zipIdx]

/-- When every candidate has been taken, the queue has what comes of each one alone. -/
theorem Taken.results (h : Taken d sets σ₀ turns q σ) (all : ∀ k < sets.length, k ∈ turns) :
    q.candidates.filterMap Candidate.result = sets.map d.proveAnew := by
  have done : ∀ x ∈ sets.zipIdx, x.2 ∈ turns := fun x hx => all _ (List.snd_lt_of_mem_zipIdx hx)
  rw [h.candidates, doneAt, List.filterMap_map, ← List.filterMap_eq_map]
  nth_rewrite 2 [← List.zipIdx_map_fst 0 sets]
  rw [List.filterMap_map]
  exact List.filterMap_congr fun x hx => if_pos (done x hx)

theorem Taken.perm (h : Taken d sets σ₀ turns q σ) (all : ∀ k < sets.length, k ∈ turns) :
    turns.Perm (List.range sets.length) := by
  refine (List.perm_ext_iff_of_nodup h.nodup List.nodup_range).2 fun k => ?_
  rw [List.mem_range]
  exact ⟨h.within k, all k⟩

end Queue

namespace Prover

open Queue

/-! ## Reports in the order of the candidates -/

/-- Whatever order workers take candidates in, there are turns in which they prove each candidate
once, and what comes of it is what comes of proving the candidates alone. -/
theorem exists_turns_of_proveManyIn {unit : Block d.method.stage} (rung : d.ringUnit = .ok unit)
    {σ : Session d.method.stage} (kept : d.Kept σ) (order : List ℕ)
    (sets : List (List (Staged Row))) {maxWorkers : ℤ} (workers : 1 ≤ maxWorkers) :
    ∃ turns : List ℕ, turns.Perm (List.range sets.length) ∧
      d.proveManyIn order sets maxWorkers σ =
        (sets.mapM d.proveAnew,
          sessionAfter (turns.filterMap (sets[·]?)) (d.prepare σ).2) := by
  have prepared := kept.yields_prepare
  rw [rung] at prepared
  rcases e : d.prepare σ with ⟨f | _, σ₁⟩
  · rw [e] at prepared
    cases prepared.fst
  rw [e] at prepared
  have waiting : Taken d sets σ₁ [] ⟨sets.map fun heads => ⟨heads, none, none⟩, true⟩ σ₁ :=
    taken_nil prepared.kept
  obtain ⟨before, part, -, -⟩ := waiting.takeAll order
  -- what the order leaves out is taken when the reports are collected
  obtain ⟨turns, whole, -, all⟩ := part.takeAll (List.range sets.length)
  have every : ∀ k < sets.length, k ∈ turns := fun k hk => all k (List.mem_range.2 hk) hk
  refine ⟨turns, whole.perm every, ?_⟩
  rw [← whole.session]
  have workers' : orFault (Queue.start maxWorkers) = .ok {} := by
    rw [Queue.start, if_pos workers]
    rfl
  unfold Prover.proveManyIn
  simp only [e, workers', collect]
  rw [part.length_candidates, whole.results every, List.mapM_map]
  rfl

/-- The session after turns at candidates which succeed keeps their work in the order of the
turns. -/
theorem logged_sessionAfter {sheet : Option TimeSheet} (fresh : ∀ t, sheet = some t → t = .empty)
    {sets : List (List (Staged Row))} {reports : List (Report (Staged Row))}
    (ok : List.Forall₂ (fun heads r => d.proveAnew heads = .ok r) sets reports) (turns : List ℕ) :
    d.Logged sheet
      (sessionAfter (turns.filterMap (sets[·]?)) (d.prepare (.start sheet)).2)
      (turns.filterMap ((sets.zip reports)[·]?)) := by
  have pairs := List.forall₂_iff_zip.1 ok
  have prepared : d.Logged sheet (d.prepare (.start sheet)).2 [] :=
    (Logged.start fresh).onlyPrepares (onlyPrepares_prepare _)
  have heads : turns.filterMap (sets[·]?) =
      (turns.filterMap ((sets.zip reports)[·]?)).map Prod.fst := by
    rw [List.map_filterMap]
    simp only [← List.getElem?_map]
    rw [List.map_fst_zip pairs.1.le]
  rw [heads]
  refine prepared.foldl_proveCourses (kept_start sheet).yields_prepare.kept fun x hx => ?_
  obtain ⟨k, -, hk⟩ := List.mem_filterMap.1 hx
  exact pairs.2 (List.mem_of_getElem? hk)

/-- **In which order candidates are proved does not matter.** In a new session the queue has for
every candidate the report that another new session yields, or the fault of the first candidate that
has one. When all succeed, a sheet which was empty gains one entry for each, named by the numbers
from one up, and the entries keep the same work for every order. -/
theorem proveManyIn_ignores_order (d : Prover) (unit : Block d.method.stage)
    (rung : d.ringUnit = .ok unit) (sheet other : Option TimeSheet)
    (fresh : ∀ t, sheet = some t → t = .empty) (maxWorkers : ℤ) (workers : 1 ≤ maxWorkers)
    (order : List ℕ) (sets : List (List (Staged Row))) :
    let alone heads := (d.proveCourses heads none (.start other)).1
    let outcome := d.proveManyIn order sets maxWorkers (.start sheet)
    (∀ reports, List.Forall₂ (fun heads r => alone heads = .ok r) sets reports →
      outcome.1 = .ok reports ∧ outcome.2.sheet.isSome = sheet.isSome ∧
      ∀ t, outcome.2.sheet = some t →
        t.proofs.keys =
          ((List.range sets.length).map fun k => d.method.title ++ "#" ++ toString (k + 1)) ∧
        (t.proofs.values.map ProofEntry.work).Perm
          (List.zipWith (fun heads r => r.work heads.length) sets reports)) ∧
    ∀ (k : ℕ) heads f, sets[k]? = some heads → alone heads = .error f →
      (∀ i < k, ∀ heads, sets[i]? = some heads → ∃ r, alone heads = .ok r) →
      outcome.1 = .error f := by
  intro alone outcome
  have kept : d.Kept (.start sheet) := kept_start sheet
  have anew : ∀ heads, alone heads = d.proveAnew heads := fun heads =>
    fst_proveCourses (kept_start other) heads none
  obtain ⟨turns, perm, e⟩ := exists_turns_of_proveManyIn rung kept order sets workers
  simp only [anew, outcome, e]
  refine ⟨fun reports ok => ⟨mapM_eq_ok_iff.2 ok, ?_⟩, fun k heads f here refused before =>
    mapM_eq_error_of_first here refused before⟩
  obtain ⟨p, hp, keys, works⟩ := (logged_sessionAfter fresh ok turns).proofs
  have perm' := perm_filterMap_getElem? (sets.zip reports) (by simpa [ok.length_eq] using perm)
  rw [perm'.length_eq, List.length_zip, ok.length_eq, min_self] at keys
  refine ⟨?_, fun t ht => ?_⟩
  · simpa [Session.proofs] using congrArg Option.isSome hp
  · obtain ⟨-, -, rfl⟩ := Option.map_eq_some_iff.1 (hp.symm.trans (by rw [Session.proofs, ht]; rfl))
    refine ⟨ok.length_eq ▸ keys, ?_⟩
    rw [works, ← List.map_uncurry_zip_eq_zipWith]
    exact perm'.map _

/-- Plain hunt at three bells, with two candidates that succeed, and with one that is refused for
its stage. -/
theorem proveManyIn_ignores_order_three_bells :
    let s : Stage := ⟨3, by decide, by decide⟩
    let wide : Stage := ⟨6, by decide, by decide⟩
    let m : Method :=
      ⟨"Plain Hunt", s, [.cross s, .ofPaired s (· = 0) (by decide)], {}, none, by decide⟩
    let d : Prover := { method := m, options := ⟨.direct, .lead, true, none, .standard, nofun⟩ }
    let one : List (Staged Row) := [.of (.rounds s)]
    let both : List (Staged Row) := [.of (.rounds s), .of (.backrounds s)]
    let other : List (Staged Row) := [.of (.rounds wide)]
    let alone heads := (d.proveCourses heads none (.start none)).1
    let logged := d.proveManyIn [1] [one, both] 2 (.start (some .empty))
    (∃ r r' t, alone one = .ok r ∧ alone both = .ok r' ∧ logged.1 = .ok [r, r'] ∧
      logged.2.sheet = some t ∧ t.proofs.keys = ["Plain Hunt Singles#1", "Plain Hunt Singles#2"] ∧
      (t.proofs.values.map ProofEntry.work).Perm [r.work 1, r'.work 2]) ∧
    (d.proveManyIn [1] [other, one] 2 (.start none)).1 =
      .error (.mismatch ⟨s, wide, "check_heads"⟩) := by
  intro s wide m d one both other alone logged
  have rung : d.ringUnit = .ok (m.leadFrom (.rounds s)) := rfl
  obtain ⟨r, one_ok⟩ : ∃ r, alone one = .ok r := ⟨_, rfl⟩
  obtain ⟨r', both_ok⟩ : ∃ r', alone both = .ok r' := ⟨_, rfl⟩
  have refused : alone other = .error (.mismatch ⟨s, wide, "check_heads"⟩) := rfl
  have ⟨proved, _⟩ := proveManyIn_ignores_order d _ rung (some .empty) none
    (fun t h => (Option.some.inj h).symm) 2 (by decide) [1] [one, both]
  have ⟨_, failed⟩ := proveManyIn_ignores_order d _ rung none none nofun 2 (by decide) [1]
    [other, one]
  obtain ⟨reports, kept, entries⟩ := proved [r, r'] (.cons one_ok (.cons both_ok .nil))
  obtain ⟨t, ht⟩ := Option.isSome_iff_exists.1 kept
  obtain ⟨keys, works⟩ := entries t ht
  have names : t.proofs.keys = ["Plain Hunt Singles#1", "Plain Hunt Singles#2"] :=
    keys.trans (by decide)
  exact ⟨⟨r, r', t, one_ok, both_ok, reports, ht, names, works⟩,
    failed 0 other _ rfl refused nofun⟩

end Prover

end Campanology
