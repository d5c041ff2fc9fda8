import Mathlib.Data.Finset.Card
import Campanology.Proofs.Block.Partition
import Campanology.Proofs.Truth.Repeats

/-!
# One pass over the rows

Repeated rows can be found in a single pass, which keeps the offset of each row that it meets for
the first time and compares the rest with what it has kept (`pass`). Before each row, what has been
kept is where every row so far stands first (`Remembers`): a row met for the first time is added to
it, and one that is met again leaves it as it is. So the pass finds the repeats (`pass_eq`).

There are as many repeats as rows less the different ones (`length_repeatOffsets_add_card`), since
each further row is either a repeat or a new one. All that the report on a block tells is put
together in `Block.prove_tells_every_repeat`.
-/

namespace Campanology

/-! ## The pass -/

section Pass

variable {α : Type} [DecidableEq α] [Hashable α]

/-- Goes through the items from `offset` on, `seen` being the offsets at which those before were met
for the first time: the repeats that are met, and how many items were looked at. -/
def passFrom (stop : Bool) (seen : Std.HashMap α ℕ) (offset : ℕ) :
    List α → List (α × ℕ × ℕ) × ℕ
  | [] => ([], 0)
  | x :: xs =>
    match seen[x]? with
    | none =>
      let rest := passFrom stop (seen.insert x offset) (offset + 1) xs
      (rest.1, rest.2 + 1)
    | some first =>
      if stop then ([(x, first, offset)], 1)
      else
        let rest := passFrom stop seen (offset + 1) xs
        ((x, first, offset) :: rest.1, rest.2 + 1)

/-- One pass over all items. -/
def pass (stop : Bool) (xs : List α) : List (α × ℕ × ℕ) × ℕ := passFrom stop ∅ 0 xs

/-- What has been seen of the items that are done: for each, where it stands first. -/
def Remembers (seen : Std.HashMap α ℕ) (done : List α) : Prop :=
  ∀ x, seen[x]? = if x ∈ done then some (done.idxOf x) else none

variable {seen : Std.HashMap α ℕ} {done : List α}

theorem remembers_nil : Remembers (∅ : Std.HashMap α ℕ) [] := fun x => by simp

/-- An item that is met for the first time is remembered. -/
theorem Remembers.insert (h : Remembers seen done) {x : α} (new : x ∉ done) :
    Remembers (seen.insert x done.length) (done ++ [x]) := by
  intro y
  rw [Std.HashMap.getElem?_insert]
  by_cases same : x = y
  · subst same
    simp [List.idxOf_append_of_notMem new]
  · rw [if_neg (by simpa using same), h y]
    by_cases old : y ∈ done
    · simp [old, List.idxOf_append_of_mem old]
    · simp [old, Ne.symm same]

/-- Of an item that is met again, nothing new is to be remembered. -/
theorem Remembers.again (h : Remembers seen done) {x : α} (old : x ∈ done) :
    Remembers seen (done ++ [x]) := by
  intro y
  rw [h y]
  by_cases known : y ∈ done
  · simp [known, List.idxOf_append_of_mem known]
  · have other : y ≠ x := fun e => known (e ▸ old)
    simp [known, other]

/-- The pass finds the repeats among the items that are left. -/
theorem passFrom_eq (stop : Bool) (h : Remembers seen done) (xs : List α) :
    passFrom stop seen done.length xs =
      survey stop (repeatAt? (done ++ xs)) (xs.zipIdx done.length) := by
  -- by induction on what is left: each row goes over to those that are done
  induction xs generalizing seen done with
  | nil => simp [passFrom]
  | cons x xs ih =>
    have all : done ++ x :: xs = (done ++ [x]) ++ xs := by simp
    have next : done.length + 1 = (done ++ [x]).length := by simp
    rw [passFrom, h x, List.zipIdx_cons]
    by_cases old : x ∈ done
    · have hit : repeatAt? (done ++ x :: xs) (x, done.length) =
          some (x, done.idxOf x, done.length) := by
        rw [repeatAt?, List.idxOf_append_of_mem old, if_pos (List.idxOf_lt_length_of_mem old)]
      rw [if_pos old, survey_cons_of_some _ _ hit]
      simp only [next]
      rw [ih (h.again old), all]
    · have miss : repeatAt? (done ++ x :: xs) (x, done.length) = none := by
        rw [repeatAt?, List.idxOf_append_of_notMem old, if_neg (by simp)]
      rw [if_neg old, survey_cons_of_none _ _ miss]
      simp only [next]
      rw [ih (h.insert old), all]

/-- One pass finds the repeats. -/
theorem pass_eq (stop : Bool) (xs : List α) : pass stop xs = repeats stop xs := by
  rw [repeats_eq]
  exact passFrom_eq stop remembers_nil xs

end Pass

/-! ## Counting repeats -/

section Count

variable {α : Type} [DecidableEq α]

theorem mem_repeatOffsets {xs : List α} {j : ℕ} :
    j ∈ repeatOffsets xs ↔ j < xs.length ∧ ∃ i < j, xs[i]? = xs[j]? := by
  simp [repeatOffsets]

theorem pairwise_repeatOffsets (xs : List α) : (repeatOffsets xs).Pairwise (· < ·) :=
  List.pairwise_lt_range.filter _

/-- A further item is a repeat if it is among those before. -/
theorem repeatOffsets_concat (xs : List α) (x : α) :
    repeatOffsets (xs ++ [x]) = repeatOffsets xs ++ if x ∈ xs then [xs.length] else [] := by
  have before : ∀ j ∈ List.range xs.length, (decide (∃ i < j, (xs ++ [x])[i]? = (xs ++ [x])[j]?)) =
      decide (∃ i < j, xs[i]? = xs[j]?) := fun j hj => by
    have within := List.mem_range.1 hj
    refine decide_eq_decide.2 (exists_congr fun i => and_congr_right fun lt => ?_)
    rw [List.getElem?_append_left (lt.trans within), List.getElem?_append_left within]
  have last : (∃ i < xs.length, (xs ++ [x])[i]? = (xs ++ [x])[xs.length]?) ↔ x ∈ xs := by
    rw [List.getElem?_concat_length, List.mem_iff_getElem?]
    refine exists_congr fun i => ⟨?_, fun e => ?_⟩
    · rintro ⟨lt, e⟩
      rwa [List.getElem?_append_left lt] at e
    · have lt := (List.getElem?_eq_some_iff.1 e).1
      exact ⟨lt, by rwa [List.getElem?_append_left lt]⟩
  rw [repeatOffsets, List.length_append, List.length_singleton, List.range_succ, List.filter_append,
    List.filter_congr before, List.filter_singleton]
  simp only [last, Bool.cond_decide]
  rfl

/-- The repeats are as many as the items less the different ones. -/
theorem length_repeatOffsets_add_card (xs : List α) :
    (repeatOffsets xs).length + xs.toFinset.card = xs.length := by
  induction xs using List.reverseRecOn with
  | nil => rfl
  | append_singleton xs x ih =>
    rw [repeatOffsets_concat, List.toFinset_append, List.toFinset_cons, List.toFinset_nil,
      List.length_append, List.length_append, List.length_singleton, insert_empty_eq,
      Finset.union_singleton]
    by_cases old : x ∈ xs
    · rw [if_pos old, Finset.insert_eq_of_mem (List.mem_toFinset.2 old), List.length_singleton]
      omega
    · rw [if_neg old, Finset.card_insert_of_notMem (mt List.mem_toFinset.1 old), List.length_nil]
      omega

end Count

/-! ## Proving a block -/

variable {s : Stage}

/-- A search that stops keeps the first of the clashes that one that goes on finds. -/
theorem clashes_reportRepeats_true (locate : ℕ → Position) (rows : List (Row s)) :
    (reportRepeats true locate rows).clashes =
      (reportRepeats false locate rows).clashes.take 1 := by
  simp only [reportRepeats, repeats_eq, survey_true, survey_false, List.map_take]

namespace Block

/-- **To prove a block is to compare every row with its first occurrence.**

* A proof that goes on has one clash for each offset at which a row stands that also stands before,
  in the order of these offsets, with the first of all offsets at which the row stands, both where
  they are in the block. It looks at all rows, and its clashes are as many as the rows less the
  different ones; so the block is true exactly if no row occurs twice.
* A proof that stops comes to the same verdict. It keeps the first of those clashes, and has looked
  at the rows up to there, or at all of them if there is none.
* The leftover row plays no part, and the report is what is found in one pass over the rows. -/
theorem prove_tells_every_repeat (b : Block s) :
    let full := b.prove false
    let short := b.prove true
    ((full.clashes.map fun c => c.second.offset).Pairwise (· < ·) ∧
      (∀ j, j ∈ full.clashes.map (fun c => c.second.offset) ↔
        j < b.rows.length ∧ ∃ i < j, b.rows[i]? = b.rows[j]?) ∧
      (∀ c ∈ full.clashes, b.rows[c.second.offset]? = some c.row ∧
        b.rows[c.first.offset]? = some c.row ∧ (∀ i < c.first.offset, b.rows[i]? ≠ some c.row) ∧
        b.position c.first.offset = .ok c.first ∧ b.position c.second.offset = .ok c.second) ∧
      full.examined = b.rows.length ∧
      full.clashes.length + b.rows.toFinset.card = b.rows.length ∧
      (full.isTrue = true ↔ b.rows.Nodup)) ∧
    (short.isTrue = full.isTrue ∧ short.clashes = full.clashes.take 1 ∧
      short.examined =
        (full.clashes.head?.map fun c => c.second.offset + 1).getD b.rows.length) ∧
    ∀ stop, (∀ leftover, { b with leftover := leftover }.prove stop = b.prove stop) ∧
      let found := pass stop b.rows
      b.prove stop =
        ⟨found.1.map fun c => ⟨c.1, b.locate c.2.1, b.locate c.2.2⟩, found.2, .direct⟩ := by
  intro full short
  have tells : ∀ stop, (b.prove stop).Tells stop b.locate b.rows := fun stop =>
    tells_reportRepeats stop (fun _ => rfl) b.rows
  have again : (full.clashes.map fun c => c.second.offset) = repeatOffsets b.rows :=
    (tells false).again
  have verdict : ∀ stop, (b.prove stop).isTrue = true ↔ b.rows.Nodup := fun stop =>
    isTrue_reportRepeats stop b.locate b.rows
  refine ⟨⟨again ▸ pairwise_repeatOffsets b.rows, fun j => again ▸ mem_repeatOffsets,
    fun c hc => ?_, (tells false).examined, ?_, verdict false⟩, ⟨?_, ?_, ?_⟩,
    fun stop => ⟨fun _ => rfl, ?_⟩⟩
  · obtain ⟨second, first, least⟩ := (tells false).first c hc
    obtain ⟨first_eq, second_eq⟩ := (tells false).located c hc
    have position : ∀ {j : ℕ}, b.rows[j]? = some c.row → b.position j = .ok (b.locate j) :=
      fun {j} row => b.position_eq_ok_iff.2
        ⟨⟨by omega, by exact_mod_cast (List.getElem?_eq_some_iff.1 row).1⟩, rfl⟩
    refine ⟨second, first, least, ?_, ?_⟩
    · rw [position first, ← first_eq]
    · rw [position second, ← second_eq]
  · have count := length_repeatOffsets_add_card b.rows
    rwa [← again, List.length_map] at count
  · rw [Bool.eq_iff_iff, verdict true, verdict false]
  · exact clashes_reportRepeats_true b.locate b.rows
  · have examined := (tells true).examined
    rw [if_pos rfl, ← again, List.head?_map, Option.map_map] at examined
    exact examined
  · intro found
    rw [prove, reportRepeats, ← pass_eq]

/-- Two bells, with rounds rung three times, the last two times in the second lead. -/
theorem prove_tells_every_repeat_two_bells :
    let s : Stage := ⟨2, by decide, by decide⟩
    let r : Row s := .rounds s
    let q : Row s := .backrounds s
    let b : Block s := ⟨[r, q, r, r], q, [2], by decide, by decide⟩
    (b.prove false).isTrue = false ∧ (b.prove false).clashes.length = 2 ∧
      (b.prove true).clashes.length = 1 ∧
      ⟨r, ⟨0, 0, 0⟩, ⟨1, 1, 3⟩⟩ ∈ (b.prove false).clashes := by
  intro s r q b
  obtain ⟨⟨-, offsets, tells, -, count, verdict⟩, ⟨-, one, -⟩, -⟩ := b.prove_tells_every_repeat
  have two : (b.prove false).clashes.length = 2 := by
    have different : b.rows.toFinset.card = 2 := by decide
    have all : b.rows.length = 4 := rfl
    omega
  refine ⟨?_, two, by simp [one, two], ?_⟩
  · rw [Bool.eq_false_iff]
    exact mt verdict.1 (by decide)
  · obtain ⟨c, hc, last⟩ := List.mem_map.1 ((offsets 3).2 ⟨by decide, 0, by decide, rfl⟩)
    obtain ⟨again, -, least, first, second⟩ := tells c hc
    rw [last] at again second
    have row : r = c.row := Option.some.inj again
    have start : c.first.offset = 0 := by
      by_contra late
      exact least 0 (Nat.pos_of_ne_zero late) (congrArg some row)
    rw [start] at first
    have first : (⟨0, 0, 0⟩ : Position) = c.first := Except.ok.inj first
    have second : (⟨1, 1, 3⟩ : Position) = c.second := Except.ok.inj second
    rwa [row, first, second]

end Block

end Campanology
