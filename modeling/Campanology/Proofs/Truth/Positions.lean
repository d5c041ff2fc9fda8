import Mathlib.Data.List.TakeWhile
import Campanology.Proofs.Truth.Agreement

/-!
# Positions in copies

Copies of a unit, one after another, are a block whose leads are the copies (`Block.joined`), unless
the unit has no rows. Then the lead in which an offset lies is told by a quotient, and the index in
it by a remainder (`locate_eq_locateCopy`): the ends up to an offset are as many as copies lie
before it. So to prove heads is to prove this block (`proveHeads_eq_prove_joined`).
-/

namespace Campanology

variable {s : Stage}

/-! ## Reports -/

/-- A report asks for the positions of offsets of rows only. -/
theorem reportRepeats_congr (stop : Bool) {locate locate' : ℕ → Position} {rows : List (Row s)}
    (h : ∀ j < rows.length, locate j = locate' j) :
    reportRepeats stop locate rows = reportRepeats stop locate' rows := by
  rw [reportRepeats, reportRepeats]
  congr 1
  refine List.map_congr_left fun c hc => ?_
  obtain ⟨before, within⟩ := lt_of_mem_repeats hc
  rw [h _ within, h _ (before.trans within)]

namespace Block

/-! ## Leads of one length -/

/-- The ends of leads of the given length. -/
def evenEnds (length count : ℕ) : List ℕ := (List.range count).map fun i => (i + 1) * length

theorem takeWhile_evenEnds {length count offset : ℕ} (pos : 0 < length)
    (h : offset < count * length) :
    (evenEnds length count).takeWhile (· ≤ offset) = evenEnds length (offset / length) := by
  obtain ⟨rest, hrest⟩ := Nat.exists_eq_add_of_lt ((Nat.div_lt_iff_lt_mul pos).2 h)
  have upTo : ∀ i, (i + 1) * length ≤ offset ↔ i < offset / length := fun i => by
    rw [← Nat.le_div_iff_mul_le pos]
    rfl
  have ends : evenEnds length count = evenEnds length (offset / length) ++
      (offset / length + 1) * length :: (List.range rest).map fun i =>
        (offset / length + (i + 1) + 1) * length := by
    rw [evenEnds, evenEnds, hrest, Nat.add_assoc, List.range_add, List.map_append,
      List.range_succ_eq_map, List.map_cons, List.map_cons, List.map_map, List.map_map]
    rfl
  rw [ends, List.takeWhile_append_of_pos, List.takeWhile_cons_of_neg, List.append_nil]
  · simp [upTo]
  · simp [evenEnds, upTo]

/-- In leads of one length, the lead and the index of an offset are its quotient and remainder. -/
theorem locate_eq_locateCopy {b : Block s} {length count offset : ℕ} (pos : 0 < length)
    (ends : b.leadEnds = evenEnds length count) (h : offset < count * length) :
    b.locate offset = locateCopy length offset := by
  have last : (evenEnds length (offset / length)).getLastD 0 = offset / length * length := by
    cases offset / length with
    | zero => simp [evenEnds]
    | succ n => simp [evenEnds, List.range_succ]
  rw [locate, ends, takeWhile_evenEnds pos h, last, locateCopy]
  simp [evenEnds, Nat.mod_eq_sub_div_mul]

/-! ## Joined copies -/

theorem pairwise_evenEnds {length : ℕ} (pos : 0 < length) (count : ℕ) :
    (0 :: evenEnds length count).Pairwise (· < ·) := by
  rw [List.pairwise_cons, evenEnds, List.pairwise_map]
  refine ⟨?_, List.pairwise_lt_range.imp fun h => Nat.mul_lt_mul_of_pos_right (by omega) pos⟩
  intro e he
  obtain ⟨i, -, rfl⟩ := List.mem_map.1 he
  exact Nat.mul_pos (Nat.succ_pos i) pos

theorem le_of_mem_evenEnds {length count e : ℕ} (h : e ∈ evenEnds length count) :
    e ≤ count * length := by
  obtain ⟨i, hi, rfl⟩ := List.mem_map.1 h
  exact Nat.mul_le_mul_right _ (List.mem_range.1 hi)

/-- The ends of so many copies of the given length; copies without rows have none. -/
def copyEnds (length count : ℕ) : List ℕ := if length = 0 then [] else evenEnds length count

/-- The block of the copies of a unit, one after another, each a lead. -/
def joined (unit : Block s) (heads : List (Row s)) (leftover : Row s) : Block s where
  rows := unit.copies heads
  leftover := leftover
  leadEnds := copyEnds unit.rows.length heads.length
  ascending := by
    unfold copyEnds
    split
    · simp
    · exact pairwise_evenEnds (by omega) _
  within := by
    intro e he
    unfold copyEnds at he
    split at he
    · cases he
    · exact (le_of_mem_evenEnds he).trans (unit.length_copies heads).ge

/-- The joined copies are proved as the heads are. -/
theorem prove_joined (unit : Block s) (heads : List (Row s)) (leftover : Row s) (stop : Bool) :
    (unit.joined heads leftover).prove stop = unit.proveCopies heads stop := by
  refine reportRepeats_congr stop fun j hj => ?_
  change j < (unit.copies heads).length at hj
  rw [length_copies] at hj
  have pos : 0 < unit.rows.length := Nat.pos_of_ne_zero fun e => by simp [e] at hj
  exact locate_eq_locateCopy pos (if_neg pos.ne') hj

end Block

/-- **To prove heads is to prove the block of their copies**, each copy a lead: whether or not the
search stops at the first clash, both yield the same report, which tells the repeats of the rows of
all copies, an offset in these being located by its quotient and remainder. -/
theorem proveHeads_eq_prove_joined (unit : Block s) (heads : List (Row s)) (leftover : Row s)
    (stop : Bool) :
    let rows := heads.flatMap fun h => unit.rows.map fun u => h * u
    let length := unit.rows.length
    let ends := if length = 0 then [] else (List.range heads.length).map fun i => (i + 1) * length
    ∃ b r, Block.ofRows s (rows.map .of) (.of leftover) (ends.map Nat.cast) = .ok b ∧
      b.rows = rows ∧ b.leadEnds = ends ∧
      unit.proveHeads (heads.map .of) stop = .ok r ∧ b.prove stop = r ∧ r.approach = .direct ∧
      r.Tells stop (fun j => ⟨j / length, j % length, j⟩) rows := by
  intro rows length ends
  refine ⟨unit.joined heads leftover, _, (unit.joined heads leftover).ofRows_self, rfl, rfl,
    unit.proveHeads_map_of heads stop, unit.prove_joined heads leftover stop, rfl, ?_⟩
  exact tells_reportRepeats stop (fun _ => rfl) rows

end Campanology
