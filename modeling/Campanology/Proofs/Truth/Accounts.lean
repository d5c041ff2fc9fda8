import Std.Data.String.ToNat
import Campanology.Proofs.Truth.Sessions

/-!
# What a time sheet keeps of proofs

To make the unit or its table writes nothing about proofs and takes no number
(`Session.OnlyPrepares`). What a proof finds is entered under its name
(`Prover.proofs_conclude_eq_alter`). So a proof which succeeds under a new name adds one entry at
the end of the sheet, which keeps its work: the approach, the number of heads, how much was examined
and the verdict (`Prover.proofs_conclude`).

So proofs that are given no name are kept in the order in which they were done, under the names that
are made of the title of the method and their numbers (`Prover.Logged`).
-/

namespace Campanology

/-! ## Writing -/

namespace Register

variable {κ α : Type} [DecidableEq κ] {k : κ} {es : List (κ × α)}

/-- A new key comes last. -/
theorem alterEntries_of_not_mem (new : k ∉ es.map Prod.fst) (f : Option α → α) :
    alterEntries k f es = es ++ [(k, f none)] := by
  induction es with
  | nil => rfl
  | cons e es ih =>
    rw [List.map_cons, List.mem_cons, not_or] at new
    rw [alterEntries, if_neg (Ne.symm new.1), ih new.2, List.cons_append]

/-- Two writes under one key are one. -/
theorem alter_alter (r : Register κ α) (k : κ) (f g : Option α → α) :
    (r.alter k f).alter k g = r.alter k fun before => g (some (f before)) := by
  obtain ⟨es⟩ := r
  refine congrArg Register.mk ?_
  change alterEntries k g (alterEntries k f es) = alterEntries k _ es
  induction es with
  | nil => simp [alterEntries]
  | cons e es ih =>
    by_cases same : e.1 = k
    · simp [alterEntries, same]
    · simp [alterEntries, same, ih]

end Register

/-- A phase under a name is kept with the proof of that name. -/
theorem TimeSheet.notePhase_of_ne_empty (t : TimeSheet) {id : String} (named : id ≠ "")
    (phase : String) (time : Seconds) :
    t.notePhase phase (some id) time = t.noteProof id phase time := by
  unfold notePhase
  split
  · rename_i e
    exact absurd (Option.some.inj e) named
  · rename_i e
    cases e
  · rename_i e
    cases e
    rfl

/-! ## Work -/

/-- The work of a proof, and its verdict. -/
structure Work where
  approach : String
  heads : ℤ
  examined : ℤ
  verdict : Option Bool
  deriving DecidableEq

/-- The work that a time sheet keeps of a proof. -/
def ProofEntry.work (e : ProofEntry) : Work := ⟨e.approach, e.heads, e.examined, e.verdict⟩

/-- The work that a report on so many heads tells. -/
def Report.work {α : Type} (heads : ℕ) (r : Report α) : Work :=
  ⟨r.approach.text, heads, r.examined, some r.isTrue⟩

namespace Session

variable {s : Stage}

/-- What is kept of proofs, if there is a time sheet. -/
def proofs (σ : Session s) : Option (Register String ProofEntry) := σ.sheet.map TimeSheet.proofs

/-- From one session to the next nothing was proved. -/
structure OnlyPrepares (σ σ' : Session s) : Prop where
  numbered : σ'.numbered = σ.numbered
  proofs : σ'.proofs = σ.proofs

theorem OnlyPrepares.refl (σ : Session s) : σ.OnlyPrepares σ := ⟨rfl, rfl⟩

theorem OnlyPrepares.trans {σ₁ σ₂ σ₃ : Session s} (h : σ₁.OnlyPrepares σ₂)
    (h' : σ₂.OnlyPrepares σ₃) : σ₁.OnlyPrepares σ₃ :=
  ⟨h'.numbered.trans h.numbered, h'.proofs.trans h.proofs⟩

/-- A write to the time sheet that leaves the proofs alone. -/
theorem onlyPrepares_note (σ : Session s) {write : TimeSheet → TimeSheet}
    (h : ∀ t, (write t).proofs = t.proofs) : σ.OnlyPrepares (σ.note write) where
  numbered := rfl
  proofs := by
    rw [proofs, proofs, note, Option.map_map]
    exact Option.map_congr fun t _ => h t

end Session

namespace Prover

open Session

variable {d : Prover} (σ : Session d.method.stage)

/-! ## Preparation -/

theorem onlyPrepares_charge (phase : String) : σ.OnlyPrepares (d.charge phase none σ) :=
  σ.onlyPrepares_note fun _ => rfl

theorem onlyPrepares_unit : σ.OnlyPrepares (d.unit σ).2 := by
  rw [Prover.unit]
  cases kept : σ.unit with
  | some b => exact .refl σ
  | none =>
    cases rung : d.ringUnit with
    | ok b => exact (onlyPrepares_charge σ "unit_generation").trans ⟨rfl, rfl⟩
    | error f => exact onlyPrepares_charge σ "unit_generation"

theorem onlyPrepares_table : σ.OnlyPrepares (d.table σ).2 := by
  have unit := onlyPrepares_unit (d := d) σ
  rw [Prover.table]
  rcases e : d.unit σ with ⟨f | b, σ'⟩
  · rw [e] at unit
    exact unit
  · rw [e] at unit
    cases kept : σ'.table with
    | some t =>
      simp only [kept]
      exact unit
    | none =>
      have charged := unit.trans (onlyPrepares_charge σ' "table_build")
      have noted : (d.charge "table_build" none σ').OnlyPrepares
          ((d.charge "table_build" none σ').note
            (·.noteTable b.rows.length (QuotientTable.ofBlock b).size)) :=
        Session.onlyPrepares_note _ fun _ => rfl
      simp only [kept]
      exact (charged.trans noted).trans ⟨rfl, rfl⟩

theorem onlyPrepares_prepare : σ.OnlyPrepares (d.prepare σ).2 := by
  rw [Prover.prepare]
  cases d.options.approach with
  | relational => exact onlyPrepares_table σ
  | direct => exact onlyPrepares_unit σ

/-! ## Proofs -/

@[simp] theorem fst_conclude {α : Type} (phase id : String) (heads : ℕ)
    (found : Except Fault (Report α)) : (d.conclude phase id heads found σ).1 = found := by
  cases found <;> rfl

theorem numbered_conclude {α : Type} (phase id : String) (heads : ℕ)
    (found : Except Fault (Report α)) :
    (d.conclude phase id heads found σ).2.numbered = σ.numbered := by
  cases found <;> rfl

/-- What is kept of a proof that took one phase and found what the report says. -/
def entry {α : Type} (d : Prover) (phase : String) (heads : ℕ) (r : Report α) : ProofEntry where
  durations := Register.empty.put phase (d.meter phase)
  approach := r.approach.text
  heads := heads
  examined := r.examined
  verdict := some r.isTrue

/-- What is kept of a proof after a phase, given what was kept under its name before: the time that
the phase took, and what the report says, if there is one. -/
def entered {α : Type} (d : Prover) (phase : String) (heads : ℕ) (report : Option (Report α))
    (before : Option ProofEntry) : ProofEntry :=
  let e := before.getD {}
  let timed := { e with durations := e.durations.put phase (d.meter phase) }
  match report with
  | some r =>
    { timed with
      approach := r.approach.text, heads, examined := r.examined, verdict := some r.isTrue }
  | none => timed

/-- Of a proof under a new name the work is kept that the report tells. -/
theorem work_entered {α : Type} (phase : String) (heads : ℕ) (report : Option (Report α)) :
    (d.entered phase heads report none).work =
      (report.map (Report.work heads)).getD ⟨"", 0, 0, none⟩ := by
  cases report <;> rfl

/-- What a proof finds is entered under its name, and a proof that is refused enters its phase. -/
theorem proofs_conclude_eq_alter {α : Type} (phase : String) {id : String} (named : id ≠ "")
    (heads : ℕ) (found : Except Fault (Report α)) :
    (d.conclude phase id heads found σ).2.proofs =
      σ.proofs.map fun p => p.alter id (d.entered phase heads found.toOption) := by
  cases found with
  | error f =>
    cases kept : σ.sheet with
    | none => simp [conclude, charge, note, Session.proofs, kept]
    | some t =>
      simp only [conclude, charge, note, Session.proofs, kept, Option.map_some,
        t.notePhase_of_ne_empty named, TimeSheet.noteProof]
      rfl
  | ok r =>
    cases kept : σ.sheet with
    | none => simp [conclude, noteReport, charge, note, Session.proofs, kept]
    | some t =>
      simp only [conclude, noteReport, charge, note, Session.proofs, kept, Option.map_some,
        t.notePhase_of_ne_empty named, TimeSheet.noteProof, TimeSheet.noteResult,
        Register.alter_alter]
      rfl

/-- A proof under a new name is kept behind the others. -/
theorem proofs_conclude {α : Type} (phase : String) {id : String} (named : id ≠ "")
    (new : ∀ p, σ.proofs = some p → id ∉ p.keys) (heads : ℕ) (r : Report α) :
    (d.conclude phase id heads (.ok r) σ).2.proofs =
      σ.proofs.map fun p => ⟨p.entries ++ [(id, d.entry phase heads r)]⟩ := by
  rw [proofs_conclude_eq_alter σ phase named]
  exact Option.map_congr fun p hp =>
    congrArg Register.mk (Register.alterEntries_of_not_mem (new p hp) _)

variable (d) in
/-- The phase in which copies of the unit are looked through. -/
def copiesPhase : String :=
  match d.options.approach with
  | .relational => "relational_check"
  | .direct => "direct_check"

/-- A proof of copies makes what it needs, and unless that is refused it is concluded. -/
theorem proveCourses_cases (heads : List (Staged Row)) (id : Option String) :
    let named := d.nameProof id σ
    (∃ f, (d.prepare named.2).1 = .error f ∧
        d.proveCourses heads id σ = (.error f, (d.prepare named.2).2)) ∨
      (d.prepare named.2).1 = .ok () ∧ ∃ found, d.proveCourses heads id σ =
        d.conclude d.copiesPhase named.1 heads.length found (d.prepare named.2).2 := by
  unfold Prover.proveCourses Prover.prepare copiesPhase
  generalize d.nameProof id σ = named
  cases d.options.approach with
  | relational =>
    rcases e : d.table named.2 with ⟨f | t, σ'⟩
    · exact .inl ⟨f, by simp only [e, Except.map], by simp only [e]⟩
    · refine .inr ⟨by simp only [e, Except.map], ?_⟩
      simp only [e]
      exact ⟨_, rfl⟩
  | direct =>
    rcases e : d.unit named.2 with ⟨f | b, σ'⟩
    · exact .inl ⟨f, by simp only [e, Except.map], by simp only [e]⟩
    · refine .inr ⟨by simp only [e, Except.map], ?_⟩
      simp only [e]
      exact ⟨_, rfl⟩

/-- A proof which succeeds makes what it needs, and then keeps what it found. -/
theorem exists_conclude_of_proveCourses {heads : List (Staged Row)} {id : Option String}
    {r : Report (Staged Row)} (ok : (d.proveCourses heads id σ).1 = .ok r) :
    ∃ phase σ', (d.nameProof id σ).2.OnlyPrepares σ' ∧
      d.proveCourses heads id σ =
        d.conclude phase (d.nameProof id σ).1 heads.length (.ok r) σ' := by
  refine ⟨d.copiesPhase, _, onlyPrepares_prepare _, ?_⟩
  obtain ⟨f, -, e⟩ | ⟨-, found, e⟩ := proveCourses_cases σ heads id
  · rw [e] at ok
    cases ok
  · rw [e, fst_conclude] at ok
    rw [e, ok]

variable (d) in
/-- The report on the copies of a unit which is rung anew. -/
def proveAnew (heads : List (Staged Row)) : Except Fault (Report (Staged Row)) := do
  let unit ← d.ringUnit
  d.proveCopiesOf unit heads

theorem fst_proveCourses {σ : Session d.method.stage} (kept : d.Kept σ) (heads : List (Staged Row))
    (id : Option String) : (d.proveCourses heads id σ).1 = d.proveAnew heads :=
  (kept.yields_proveCourses heads id).fst

/-! ## Names -/

/-- The name of a proof that is given none, by its number. -/
def numberedName (d : Prover) (number : ℕ) : String := d.method.title ++ "#" ++ toString number

theorem numberedName_injective (d : Prover) : Function.Injective d.numberedName := by
  intro a b h
  rw [numberedName, numberedName, String.append_right_inj] at h
  exact Nat.repr_inj.1 h

theorem numberedName_ne_empty (d : Prover) (number : ℕ) : d.numberedName number ≠ "" := by
  rw [numberedName, Ne, String.append_eq_empty_iff, String.append_eq_empty_iff]
  rintro ⟨⟨-, h⟩, -⟩
  exact absurd h (by decide)

/-! ## Proofs without names -/

variable (d) in
/-- As many proofs were done as are numbered, and a time sheet, if there was one to begin with,
keeps their work in their order. -/
structure Logged (sheet : Option TimeSheet) (σ : Session d.method.stage)
    (done : List (List (Staged Row) × Report (Staged Row))) : Prop where
  numbered : σ.numbered = done.length
  proofs : ∃ p : Register String ProofEntry, σ.proofs = sheet.map (fun _ => p) ∧
    p.keys = ((List.range done.length).map fun k => d.numberedName (k + 1)) ∧
    p.values.map ProofEntry.work = done.map fun x => x.2.work x.1.length

namespace Logged

variable {sheet : Option TimeSheet} {σ} {σ' : Session d.method.stage}
  {done : List (List (Staged Row) × Report (Staged Row))}

theorem start (fresh : ∀ t, sheet = some t → t = .empty) : d.Logged sheet (.start sheet) [] where
  numbered := rfl
  proofs := ⟨.empty, Option.map_congr fun t ht => by rw [fresh t ht]; rfl, rfl, rfl⟩

theorem onlyPrepares (h : d.Logged sheet σ done) (prepares : σ.OnlyPrepares σ') :
    d.Logged sheet σ' done where
  numbered := prepares.numbered.trans h.numbered
  proofs := prepares.proofs ▸ h.proofs

/-- The next number makes a new name. -/
theorem numberedName_not_mem {p : Register String ProofEntry}
    (keys : p.keys = (List.range done.length).map fun k => d.numberedName (k + 1)) :
    d.numberedName (done.length + 1) ∉ p.keys := by
  rw [keys, List.mem_map]
  rintro ⟨k, hk, same⟩
  have := List.mem_range.1 hk
  have := d.numberedName_injective same
  omega

/-- A proof without a name that succeeds is kept next. -/
theorem proveCourses (h : d.Logged sheet σ done) {heads : List (Staged Row)}
    {r : Report (Staged Row)} (ok : (d.proveCourses heads none σ).1 = .ok r) :
    d.Logged sheet (d.proveCourses heads none σ).2 (done ++ [(heads, r)]) := by
  obtain ⟨phase, σ', prepares, e⟩ := exists_conclude_of_proveCourses σ ok
  obtain ⟨p, hp, keys, works⟩ := h.proofs
  have name : (d.nameProof none σ).1 = d.numberedName (done.length + 1) := by
    rw [← h.numbered]
    rfl
  have before : σ'.proofs = sheet.map fun _ => p := prepares.proofs.trans hp
  have new : ∀ q, σ'.proofs = some q → d.numberedName (done.length + 1) ∉ q.keys := by
    intro q hq
    obtain ⟨-, -, rfl⟩ := Option.map_eq_some_iff.1 (before.symm.trans hq)
    exact numberedName_not_mem keys
  rw [e, name]
  refine ⟨?_, ⟨p.entries ++ [(d.numberedName (done.length + 1), d.entry phase heads.length r)]⟩,
    ?_, ?_, ?_⟩
  · rw [numbered_conclude, prepares.numbered, List.length_append]
    exact congrArg (· + 1) h.numbered
  · rw [proofs_conclude σ' phase (d.numberedName_ne_empty _) new, before, Option.map_map]
    rfl
  · rw [Register.keys, List.map_append, List.length_append, List.length_singleton,
      List.range_succ, List.map_append, ← keys]
    rfl
  · rw [Register.values, List.map_append, List.map_append, List.map_append, ← works]
    rfl

/-- **Proofs without names are kept in the order in which they are done**, as long as they
succeed. -/
theorem foldl_proveCourses (h : d.Logged sheet σ done) (kept : d.Kept σ)
    {more : List (List (Staged Row) × Report (Staged Row))}
    (ok : ∀ x ∈ more, d.proveAnew x.1 = .ok x.2) :
    d.Logged sheet ((more.map Prod.fst).foldl (fun σ heads => (d.proveCourses heads none σ).2) σ)
      (done ++ more) := by
  induction more generalizing σ done with
  | nil => simpa using h
  | cons x more ih =>
    rw [List.forall_mem_cons] at ok
    have next := h.proveCourses ((fst_proveCourses kept x.1 none).trans ok.1)
    rw [List.map_cons, List.foldl_cons, List.append_cons]
    exact ih next (kept.yields_proveCourses x.1 none).kept ok.2

end Logged

end Prover

end Campanology
