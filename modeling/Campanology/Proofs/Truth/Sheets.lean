import Mathlib.Algebra.BigOperators.Group.List.Basic
import Campanology.Proofs.Truth.Agreement
import Campanology.Proofs.Truth.Calls

/-!
# The sheet of a history of proofs

The names of the proofs in a history are those which are given and those which are made of the
numbers taken (`Prover.perm_names`). Proofs of one name share an entry on the sheet, so there are as
many entries as there are different names.

If the names that are given differ from one another and from all that are made of numbers, each
proof that began has an entry of its own, and the sheet tells the calls in their order
(`Prover.sheet_tells_calls`). If a name that is given is also made of a number, two proofs share an
entry (`Prover.size_add_shared_names`).
-/

namespace Campanology

/-! ## Things entered one after another -/

/-- What two lists share is counted once. -/
theorem card_toFinset_append {α : Type} [DecidableEq α] {xs ys : List α} (hx : xs.Nodup)
    (hy : ys.Nodup) :
    (xs ++ ys).toFinset.card + (xs.filter (· ∈ ys)).length = xs.length + ys.length := by
  have shared : (xs.filter (· ∈ ys)).length = (xs.toFinset ∩ ys.toFinset).card := by
    rw [← List.toFinset_card_of_nodup (hx.filter _)]
    congr 1
    ext x
    simp
  rw [shared, List.toFinset_append, Finset.card_union_add_card_inter,
    List.toFinset_card_of_nodup hx, List.toFinset_card_of_nodup hy]

namespace Register

variable {κ α β : Type} [DecidableEq κ]

/-- Things entered one after another under new keys come last, in their order. -/
theorem entries_foldl_alter (key : β → κ) (f : β → Option α → α) (xs : List β) (r : Register κ α)
    (new : (r.keys ++ xs.map key).Nodup) :
    (xs.foldl (fun r x => r.alter (key x) (f x)) r).entries =
      r.entries ++ xs.map fun x => (key x, f x none) := by
  induction xs generalizing r with
  | nil => simp
  | cons x xs ih =>
    have absent : key x ∉ r.keys := by
      intro old
      exact (List.nodup_append.1 new).2.2 _ old _ List.mem_cons_self rfl
    have next : (r.alter (key x) (f x)).keys = r.keys ++ [key x] := by
      rw [keys_alter, if_neg absent]
    rw [List.foldl_cons, ih, alter, alterEntries_of_not_mem absent, List.append_assoc]
    · rfl
    · rw [next, List.append_assoc]
      exact new

theorem mem_keys_alter {r : Register κ α} {k k' : κ} {f : Option α → α} :
    k' ∈ (r.alter k f).keys ↔ k' ∈ r.keys ∨ k' = k := by
  rw [keys_alter]
  split
  · rename_i old
    exact ⟨.inl, fun h => h.elim id (· ▸ old)⟩
  · rw [List.mem_append, List.mem_singleton]

theorem nodup_keys_alter {r : Register κ α} (nodup : r.keys.Nodup) (k : κ) (f : Option α → α) :
    (r.alter k f).keys.Nodup := by
  rw [keys_alter]
  split
  · exact nodup
  · rename_i new
    exact List.concat_eq_append ▸ nodup.concat new

theorem nodup_keys_foldl_alter (key : β → κ) (f : β → Option α → α) (xs : List β)
    {r : Register κ α} (nodup : r.keys.Nodup) :
    (xs.foldl (fun r x => r.alter (key x) (f x)) r).keys.Nodup := by
  induction xs generalizing r with
  | nil => exact nodup
  | cons x xs ih => exact ih (nodup_keys_alter nodup _ _)

theorem mem_keys_foldl_alter {key : β → κ} {f : β → Option α → α} {xs : List β}
    {r : Register κ α} {k : κ} :
    k ∈ (xs.foldl (fun r x => r.alter (key x) (f x)) r).keys ↔ k ∈ r.keys ∨ k ∈ xs.map key := by
  induction xs generalizing r with
  | nil => simp
  | cons x xs ih => rw [List.foldl_cons, ih, mem_keys_alter, List.map_cons, List.mem_cons, or_assoc]

/-- Things entered one after another share an entry if they share a key. -/
theorem size_foldl_alter (key : β → κ) (f : β → Option α → α) (xs : List β) (r : Register κ α)
    (nodup : r.keys.Nodup) :
    (xs.foldl (fun r x => r.alter (key x) (f x)) r).size =
      (r.keys ++ xs.map key).toFinset.card := by
  have different := List.toFinset_card_of_nodup (nodup_keys_foldl_alter key f xs nodup)
  rw [keys, List.length_map] at different
  rw [size, ← different]
  congr 1
  ext k
  rw [List.mem_toFinset, List.mem_toFinset, List.mem_append]
  exact mem_keys_foldl_alter

end Register

namespace TimeSheet

/-- The names of the proofs on a time sheet, with the work that is kept of them. -/
def works (t : TimeSheet) : List (String × Work) := t.proofs.entries.map fun e => (e.1, e.2.work)

theorem totalExamined_eq_sum (t : TimeSheet) :
    t.totalExamined = (t.works.map (·.2.examined)).sum := by
  rw [totalExamined, Register.values, works, List.map_map, List.sum_eq_foldl, List.foldl_map,
    List.foldl_map]
  rfl

theorem falseProofs_eq_map (t : TimeSheet) :
    t.falseProofs = (t.works.filter (·.2.verdict = some false)).map Prod.fst := by
  rw [falseProofs, works, List.filter_map, List.map_map]
  rfl

end TimeSheet

namespace Prover

variable {d : Prover}

/-- Only what was reported was examined. -/
theorem Call.sum_examined_work {s : Stage} (cs : List (Call s)) :
    (cs.map (·.work.examined)).sum =
      ((cs.filterMap Call.report?).map fun r => (r.examined : ℤ)).sum := by
  induction cs with
  | nil => rfl
  | cons c cs ih =>
    rw [List.map_cons, List.sum_cons, ih, Call.work]
    cases told : c.report? with
    | none => rw [List.filterMap_cons_none told, zero_add]
    | some r =>
      rw [List.filterMap_cons_some told, List.map_cons, List.sum_cons]
      rfl

theorem Call.verdict_work_eq_false {s : Stage} (c : Call s) :
    decide (c.work.verdict = some false) = c.report?.any (!·.isTrue) := by
  rw [Call.work]
  cases c.report? with
  | none => rfl
  | some r => cases verdict : r.isTrue <;> simp [Report.work, verdict]

section Begun

variable {cs : List (Call d.method.stage)}
  (reported : ∀ c ∈ cs, c.report?.isSome → d.begins c.request)

include reported

/-- All reports are on proofs that were begun. -/
theorem filterMap_report?_begun :
    (cs.filter (d.begins ·.request)).filterMap Call.report? = cs.filterMap Call.report? := by
  rw [List.filterMap_filter]
  refine List.filterMap_congr fun c mem => ?_
  cases told : c.report? with
  | none => exact ite_self none
  | some r => exact if_pos (reported c mem (by rw [told]; rfl))

theorem filter_false_begun :
    (cs.filter (d.begins ·.request)).filter (·.report?.any (!·.isTrue)) =
      cs.filter (·.report?.any (!·.isTrue)) := by
  rw [List.filter_filter]
  refine List.filter_congr fun c mem => ?_
  cases told : c.report? with
  | none => rfl
  | some r => rw [reported c mem (by rw [told]; rfl), Bool.and_true]

end Begun

/-! ## Names -/

theorem hash_mem_numberedName (d : Prover) (number : ℕ) :
    '#' ∈ (d.numberedName number).toList := by
  simp [numberedName]

variable (d) in
/-- Whether a request comes to have a name. -/
def names (request : Request) : Bool := request.given.isSome || d.numbers request

theorem numbers_of_given {request : Request} {id : String} (given : request.given = some id) :
    d.numbers request = false := by
  cases request with
  | proveBlock block id' => rw [numbers, given]; rfl
  | proveCourses heads id' => rw [numbers, given]; rfl
  | _ => cases given

theorem names_of_begins {request : Request} (begins : d.begins request) : d.names request := by
  rw [names]
  cases given : request.given with
  | some id => rfl
  | none =>
    cases request with
    | proveBlock block id => rw [numbers, given]; rfl
    | provePlainCourse => exact begins
    | proveCourses heads id => rw [numbers, given]; rfl
    | _ => cases begins

/-- The names are those given and those made of the numbers taken. -/
theorem perm_names (taken : ℕ) (history : List Request) (σ : Session d.method.stage) :
    (((d.calls taken history σ).filter (d.names ·.request)).map d.nameOf).Perm
      (history.filterMap Request.given ++
        (List.range' (taken + 1) (history.countP d.numbers)).map d.numberedName) := by
  induction history generalizing taken σ with
  | nil => exact .refl _
  | cons request history ih =>
    have later := ih (taken + (d.numbers request).toNat) (d.perform request σ).2
    rw [calls, List.filter_cons, List.filterMap_cons, List.countP_cons, names]
    cases given : request.given with
    | some id =>
      rw [numbers_of_given given] at later ⊢
      have name : d.nameOf ⟨request, taken, (d.perform request σ).1⟩ = id := by
        rw [nameOf, given]
        rfl
      simp only [Option.isSome_some, Bool.true_or, if_true, List.map_cons, name]
      exact later.cons id
    | none =>
      cases numbers : d.numbers request with
      | false =>
        rw [numbers] at later
        exact later
      | true =>
        rw [numbers] at later
        have name : d.nameOf ⟨request, taken, (d.perform request σ).1⟩ =
            d.numberedName (taken + 1) := by
          rw [nameOf, given]
          rfl
        simp only [Option.isSome_none, Bool.false_or, if_true, List.map_cons, name,
          List.range'_succ]
        exact (later.cons _).trans List.perm_middle.symm

/-- If the names that are given differ from one another and from those made of numbers, no two
proofs that begin have one name. -/
theorem nodup_names {history : List Request} (differ : (history.filterMap Request.given).Nodup)
    (apart : ∀ id ∈ history.filterMap Request.given, ∀ n, id ≠ d.numberedName n) (taken : ℕ)
    (σ : Session d.method.stage) :
    (((d.calls taken history σ).filter (d.begins ·.request)).map d.nameOf).Nodup := by
  have numbered : ((List.range' (taken + 1) (history.countP d.numbers)).map d.numberedName).Nodup :=
    .map d.numberedName_injective List.nodup_range'
  have all := List.nodup_append.2 ⟨differ, numbered, fun id given name made => ?_⟩
  · have begun : ((d.calls taken history σ).filter (d.begins ·.request)).Sublist
        ((d.calls taken history σ).filter (d.names ·.request)) :=
      List.monotone_filter_right _ fun c => names_of_begins
    exact ((perm_names taken history σ).nodup_iff.2 all).sublist (begun.map d.nameOf)
  · obtain ⟨n, -, rfl⟩ := List.mem_map.1 made
    exact apart id given n

/-! ## The sheet -/

variable (d) in
/-- **The sheet is an account of the calls.** If the names that are given differ from one another
and from those made of numbers, it keeps each proof that began under its own name, in the order of
the calls, with the work that was reported, or none if a head was refused. A proof without a name is
called by the next number; it takes the number also if its unit cannot be rung, though then nothing
is kept. So the totals of the sheet are those of the reports that were given. -/
theorem sheet_tells_calls (history : List Request)
    (differ : (history.filterMap Request.given).Nodup)
    (apart : ∀ id ∈ history.filterMap Request.given, ∀ n, id ≠ d.numberedName n) :
    let σ := d.after history (.start (some .empty))
    let calls := d.calls 0 history (.start (some .empty))
    ∃ t, σ.sheet = some t ∧ t.proofs.keys.Nodup ∧
      t.works = (calls.filter (d.begins ·.request)).map (fun c => (d.nameOf c, c.work)) ∧
      σ.numbered = history.countP d.numbers ∧
      t.totalExamined = ((calls.filterMap Call.report?).map fun r => (r.examined : ℤ)).sum ∧
      t.falseProofs = (calls.filter fun c => c.report?.any (!·.isTrue)).map d.nameOf ∧
      ∀ c ∈ calls, if d.begins c.request then
          (∃ r, c.report? = some r) ∨ ∃ m, c.outcome = .error (.mismatch m)
        else c.report? = none := by
  intro σ calls
  have kept : d.Kept (.start (some .empty)) := kept_start _
  have reported : ∀ c ∈ calls, c.report?.isSome → d.begins c.request :=
    fun c mem told => begins_of_report? kept mem told
  obtain ⟨t, sheet, ht⟩ := d.exists_sheet history
  have names : ((calls.filter (d.begins ·.request)).map d.nameOf).Nodup :=
    nodup_names differ apart 0 _
  have entries : t.proofs.entries = (calls.filter (d.begins ·.request)).map fun c =>
      (d.nameOf c, d.enteredBy c none) := by
    rw [ht]
    exact Register.entries_foldl_alter _ _ _ .empty names
  have works : t.works = (calls.filter (d.begins ·.request)).map fun c => (d.nameOf c, c.work) := by
    rw [TimeSheet.works, entries, List.map_map]
    exact List.map_congr_left fun c _ => congrArg (d.nameOf c, ·) (work_enteredBy c)
  refine ⟨t, sheet, ?_, works, ?_, ?_, ?_, ?_⟩
  · rw [Register.keys, entries, List.map_map]
    exact names
  · exact (numbered_after kept history).trans (Nat.zero_add _)
  · rw [t.totalExamined_eq_sum, works, List.map_map, ← filterMap_report?_begun reported]
    exact Call.sum_examined_work _
  · rw [t.falseProofs_eq_map, works, List.filter_map, List.map_map, ← filter_false_begun reported]
    exact congrArg (List.map d.nameOf) (List.filter_congr fun c _ => c.verdict_work_eq_false)
  · intro c mem
    split
    · rename_i begins
      have outcome := outcome_of_mem_calls kept mem
      obtain ⟨r, hr⟩ | ⟨m, hm⟩ := anew_of_begins begins
      · exact .inl ⟨r, Call.report?_eq_some_iff.2 (outcome.trans hr)⟩
      · exact .inr ⟨m, outcome.trans hm⟩
    · rename_i short
      exact Option.not_isSome_iff_eq_none.1 fun told => short (reported c mem told)

/-- Plain hunt at three bells, of which no course is rung within five rows. The proof of copies
takes a number and begins nothing, that of the plain course does neither. -/
theorem sheet_tells_calls_three_bells :
    let s : Stage := ⟨3, by decide, by decide⟩
    let m : Method :=
      ⟨"Plain Hunt", s, [.cross s, .ofPaired s (· = 0) (by decide)], {}, none, by decide⟩
    let tight : Settings := .capped 5 9 (by decide) (by decide)
    let d : Prover := { method := m, options := ⟨.relational, .course, true, none, tight, nofun⟩ }
    let lead : Staged Block := .of (m.leadFrom (.rounds s))
    let history : List Request := [.proveBlock lead (some "touch"),
      .proveCourses [.of (.rounds s)] none, .provePlainCourse, .proveBlock lead none]
    let σ := d.after history (.start (some .empty))
    ∃ t, σ.sheet = some t ∧ t.works.map Prod.fst = ["touch", "Plain Hunt Singles#2"] ∧
      σ.numbered = 2 := by
  intro s m tight d lead history σ
  have budget : min ((some tight).getD .standard).maxLeads
      (((some tight).getD .standard).maxRows / m.leadLength) = 2 := by decide
  have unclosed := m.plainCourse_of_lt (some tight) (by decide)
  have noCourse : d.begins .provePlainCourse = false := by
    rw [begins, unclosed]
    rfl
  have noNumber : d.numbers .provePlainCourse = false := noCourse
  have rung : ∀ id, d.begins (.proveBlock lead id) = true := fun _ => rfl
  have noUnit : d.begins (.proveCourses [.of (.rounds s)] none) = false := by
    rw [begins, ringUnit, Method.unit, unclosed]
    rfl
  have apart : ∀ id ∈ history.filterMap Request.given, ∀ n, id ≠ d.numberedName n := by
    rintro id given n rfl
    have touch : d.numberedName n ∈ ["touch"] := given
    have hash := d.hash_mem_numberedName n
    rw [List.mem_singleton.1 touch] at hash
    exact absurd hash (by decide)
  obtain ⟨t, sheet, -, works, numbered, -⟩ := d.sheet_tells_calls history (by decide) apart
  refine ⟨t, sheet, ?_, ?_⟩
  · have second : d.numberedName 2 = "Plain Hunt Singles#2" := by decide
    rw [works, List.map_map, ← second]
    simp only [history, calls, List.filter_cons, List.filter_nil, rung, noUnit, noCourse, noNumber,
      Bool.false_eq_true, if_true, if_false]
    rfl
  · rw [numbered]
    simp only [history, List.countP_cons, List.countP_nil, noNumber]
    rfl

/-! ## Names that are shared -/

variable (d) in
/-- **One entry is missing for each name that is given and made of a number as well.** If every
request is answered by a report and the names that are given differ from one another, there is an
entry for each call exactly if none of them is made of a number that was taken. -/
theorem size_add_shared_names (history : List Request)
    (differ : (history.filterMap Request.given).Nodup)
    (reported : ∀ c ∈ d.calls 0 history (.start (some .empty)), c.report?.isSome) :
    let given := history.filterMap Request.given
    let made := (List.range' 1 (history.countP d.numbers)).map d.numberedName
    ∃ t, (d.after history (.start (some .empty))).sheet = some t ∧
      t.proofs.size + (given.filter (· ∈ made)).length = history.length ∧
      (t.proofs.size = history.length ↔ ∀ id ∈ given, id ∉ made) := by
  intro given made
  obtain ⟨t, sheet, ht⟩ := d.exists_sheet history
  have begun : ∀ c ∈ d.calls 0 history (.start (some .empty)), d.begins c.request :=
    fun c mem => begins_of_report? (kept_start _) mem (reported c mem)
  have perm : ((d.calls 0 history (.start (some .empty))).map d.nameOf).Perm (given ++ made) := by
    have all := perm_names 0 history (.start (some .empty) : Session d.method.stage)
    rwa [List.filter_eq_self.2 fun c mem => names_of_begins (begun c mem)] at all
  have size : t.proofs.size = (given ++ made).toFinset.card := by
    rw [ht, List.filter_eq_self.2 begun]
    refine (Register.size_foldl_alter _ _ _ .empty List.nodup_nil).trans ?_
    exact congrArg Finset.card (List.toFinset_eq_of_perm _ _ perm)
  have length : given.length + made.length = history.length := by
    rw [← List.length_append, ← perm.length_eq, List.length_map, length_calls]
  have count : t.proofs.size + (given.filter (· ∈ made)).length = history.length := by
    rw [size, ← length]
    exact card_toFinset_append differ (.map d.numberedName_injective List.nodup_range')
  refine ⟨t, sheet, count, ?_⟩
  rw [← count, left_eq_add, List.length_eq_zero_iff, List.filter_eq_nil_iff]
  simp only [decide_eq_true_eq]

/-- Plain hunt at three bells. A touch is called by the name that the second proof without a name is
to have, and the two share what is kept. -/
theorem size_add_shared_names_three_bells :
    let s : Stage := ⟨3, by decide, by decide⟩
    let m : Method :=
      ⟨"Plain Hunt", s, [.cross s, .ofPaired s (· = 0) (by decide)], {}, none, by decide⟩
    let d : Prover := { method := m, options := ⟨.direct, .lead, true, none, .standard, nofun⟩ }
    let lead : Staged Block := .of (m.leadFrom (.rounds s))
    let history : List Request := [.proveBlock lead (some "Plain Hunt Singles#2"),
      .proveBlock lead none, .proveCourses [.of (.rounds s)] none]
    ∃ t, (d.after history (.start (some .empty))).sheet = some t ∧ t.proofs.size = 2 := by
  intro s m d lead history
  have proved : d.anew (.proveCourses [.of (.rounds s)] none) = .ok (.report
      ((m.leadFrom (.rounds s)).proveCopies [.rounds s] true).staged) := by
    have told := (m.leadFrom (.rounds s)).proveHeads_map_of [.rounds s] true
    change Answer.report <$> (orFault ((m.leadFrom (.rounds s)).proveHeads
      ([Row.rounds s].map .of) true)).map Report.staged = _
    rw [told]
    rfl
  have reported : ∀ c ∈ d.calls 0 history (.start (some .empty)), c.report?.isSome := by
    intro c mem
    have outcome := outcome_of_mem_calls (kept_start _) mem
    obtain rfl | rfl | later := List.mem_cons.1 mem |>.imp_right List.mem_cons.1
    · rfl
    · rfl
    · obtain rfl := List.mem_singleton.1 later
      rw [Call.report?_eq_some_iff.2 (outcome.trans proved)]
      rfl
  obtain ⟨t, sheet, size, -⟩ := d.size_add_shared_names history (by decide) reported
  have shared : ((history.filterMap Request.given).filter
      (· ∈ (List.range' 1 (history.countP d.numbers)).map d.numberedName)).length = 1 := by decide
  rw [shared] at size
  exact ⟨t, sheet, Nat.succ.inj size⟩

/-- The names made of numbers are not kept from being given. A block is proved under the name of the
first number, and then without a name, and both proofs write to one entry. -/
theorem proofs_share_record :
    ¬ ∀ (d : Prover) (history : List Request), (history.filterMap Request.given).Nodup →
      (∀ c ∈ d.calls 0 history (.start (some .empty)), c.report?.isSome) →
      ∀ t, (d.after history (.start (some .empty))).sheet = some t →
        t.proofs.size = history.length := by
  intro oneEach
  let s : Stage := ⟨3, by decide, by decide⟩
  let m : Method :=
    ⟨"Plain Hunt", s, [.cross s, .ofPaired s (· = 0) (by decide)], {}, none, by decide⟩
  let d : Prover := { method := m, options := .standard }
  let lead : Staged Block := .of (m.leadFrom (.rounds s))
  let history : List Request :=
    [.proveBlock lead (some "Plain Hunt Singles#1"), .proveBlock lead none]
  have first : d.numberedName 1 = "Plain Hunt Singles#1" := by decide
  obtain ⟨t, sheet, ht⟩ := d.exists_sheet history
  have size : t.proofs.size = 2 := by
    refine oneEach d history (by decide) (fun c mem => ?_) t sheet
    obtain rfl | rfl := List.mem_pair.1 mem
    · rfl
    · rfl
  have names : ((d.calls 0 history (.start (some .empty))).filter
      (d.begins ·.request)).map d.nameOf = ["Plain Hunt Singles#1", "Plain Hunt Singles#1"] :=
    congrArg (["Plain Hunt Singles#1", ·]) first
  rw [ht, Register.size_foldl_alter _ _ _ .empty List.nodup_nil, names] at size
  exact absurd size (by decide)

end Prover

end Campanology
