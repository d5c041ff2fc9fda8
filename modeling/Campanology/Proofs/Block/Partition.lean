import Mathlib.Data.List.TakeWhile
import Campanology.Block
import Campanology.Proofs.Refusals

/-!
# How leads part a block

The leads of a block are cut off its rows one after another (`cut`). One may as well list the
offsets at which leads begin, which are 0 and the ends, but for an end that no row follows
(`starts`), and take the rows from one of them up to the next (`getElem?_cut`). The lead in which an
offset lies is told by the ends up to it alone, without a look at the leads (`locate`).

The three agree, whatever the lead ends are: none, an incomplete lead after the last one, or an end
at the end of the block (`leads_part_rows`). All of it is shown for any list that is cut from some
offset on, by induction on the ends that are left.
-/

namespace Campanology.Block

/-! ## Cutting a list -/

section Cut

variable {α : Type} {rows : List α}

/-- The offsets at which pieces begin: all that are given but the last, if nothing follows it. -/
def beginnings (length : ℕ) (starts : List ℕ) : List ℕ :=
  if starts.getLast? = some length then starts.dropLast else starts

theorem beginnings_cons_cons (length start e : ℕ) (ends : List ℕ) :
    beginnings length (start :: e :: ends) = start :: beginnings length (e :: ends) := by
  rw [beginnings, beginnings, List.getLast?_cons_cons, List.dropLast_cons_cons,
    apply_ite (start :: ·)]

/-- A piece goes up to where the next one begins. -/
theorem beginnings_head (length e : ℕ) (ends : List ℕ) :
    (beginnings length (e :: ends))[0]?.getD length = e := by
  cases ends with
  | nil =>
    rw [beginnings]
    split
    · rename_i last
      simpa using last.symm
    · rfl
  | cons e' ends => rw [beginnings_cons_cons]; rfl

/-- The rows from `start` on may be cut at the ends: these ascend, and stay within the rows. -/
structure Cuts (rows : List α) (start : ℕ) (ends : List ℕ) : Prop where
  ascending : (start :: ends).Pairwise (· < ·)
  within : ∀ e ∈ start :: ends, e ≤ rows.length

theorem Cuts.tail {start e : ℕ} {ends : List ℕ} (h : Cuts rows start (e :: ends)) :
    start < e ∧ e ≤ rows.length ∧ Cuts rows e ends := by
  obtain ⟨⟨below, ascending⟩, within⟩ := And.intro (List.pairwise_cons.1 h.ascending) h.within
  rw [List.forall_mem_cons] at within
  exact ⟨below e List.mem_cons_self, within.2 e List.mem_cons_self, ascending, within.2⟩

theorem flatten_cut (start : ℕ) (ends : List ℕ) (xs : List α) :
    (cut start ends xs).flatten = xs := by
  induction ends generalizing start xs with
  | nil => cases xs <;> simp [cut]
  | cons e ends ih => rw [cut, List.flatten_cons, ih, List.take_append_drop]

theorem cut_cons {start e : ℕ} (lt : start < e) (ends : List ℕ) :
    cut start (e :: ends) (rows.drop start) =
      (rows.take e).drop start :: cut e ends (rows.drop e) := by
  rw [cut, List.drop_drop, List.take_drop, Nat.add_sub_cancel' lt.le]

theorem ne_nil_of_mem_cut {start : ℕ} {ends : List ℕ} (h : Cuts rows start ends) :
    ∀ piece ∈ cut start ends (rows.drop start), piece ≠ [] := by
  induction ends generalizing start with
  | nil => cases rows.drop start <;> simp [cut]
  | cons e ends ih =>
    obtain ⟨lt, le, rest⟩ := h.tail
    rw [cut_cons lt, List.forall_mem_cons]
    refine ⟨List.ne_nil_of_length_pos ?_, ih rest⟩
    rw [List.length_drop, List.length_take_of_le le]
    omega

/-- **A piece is what lies from one beginning up to the next.** -/
theorem getElem?_cut {start : ℕ} {ends : List ℕ} (h : Cuts rows start ends) (i : ℕ) :
    (cut start ends (rows.drop start))[i]? =
      (beginnings rows.length (start :: ends))[i]?.map fun a =>
        (rows.take ((beginnings rows.length (start :: ends))[i + 1]?.getD rows.length)).drop a := by
  induction ends generalizing start i with
  | nil =>
    have le := h.within start List.mem_cons_self
    by_cases empty : start = rows.length
    · simp [empty, beginnings, cut]
    · have some : rows.drop start ≠ [] := by
        rw [ne_eq, List.drop_eq_nil_iff]
        omega
      obtain ⟨x, xs, e⟩ := List.exists_cons_of_ne_nil some
      cases i <;> simp [empty, beginnings, cut, e]
  | cons e ends ih =>
    obtain ⟨lt, le, rest⟩ := h.tail
    rw [cut_cons lt, beginnings_cons_cons]
    cases i with
    | zero =>
      simp only [List.getElem?_cons_zero, List.getElem?_cons_succ, Option.map_some,
        beginnings_head]
    | succ i => simpa only [List.getElem?_cons_succ] using ih rest i

/-- The ends up to an offset tell the piece in which it lies, and the last of them how far into
it. -/
theorem exists_getElem?_cut {start : ℕ} {ends : List ℕ} (h : Cuts rows start ends) {j : ℕ}
    (low : start ≤ j) (high : j < rows.length) :
    ∃ piece, (cut start ends (rows.drop start))[(ends.takeWhile (· ≤ j)).length]? = some piece ∧
      piece[j - (ends.takeWhile (· ≤ j)).getLastD start]? = rows[j]? := by
  induction ends generalizing start with
  | nil =>
    have some : rows.drop start ≠ [] := by
      rw [ne_eq, List.drop_eq_nil_iff]
      omega
    obtain ⟨x, xs, e⟩ := List.exists_cons_of_ne_nil some
    refine ⟨rows.drop start, by simp [cut, e], ?_⟩
    rw [List.takeWhile_nil, List.getLastD_nil, List.getElem?_drop, Nat.add_sub_cancel' low]
  | cons e ends ih =>
    obtain ⟨lt, le, rest⟩ := h.tail
    rw [cut_cons lt]
    by_cases beyond : e ≤ j
    · obtain ⟨piece, here, row⟩ := ih rest beyond
      rw [List.takeWhile_cons_of_pos (by simpa using beyond), List.getLastD_cons]
      exact ⟨piece, here, row⟩
    · rw [List.takeWhile_cons_of_neg (by simpa using beyond), List.getLastD_nil]
      refine ⟨(rows.take e).drop start, rfl, ?_⟩
      rw [List.getElem?_drop, Nat.add_sub_cancel' low, List.getElem?_take_of_lt (by omega)]

end Cut

/-! ## Leads -/

variable {s : Stage} (b : Block s)

/-- The offsets at which leads begin. -/
def starts : List ℕ := beginnings b.rows.length (0 :: b.leadEnds)

theorem cuts : Cuts b.rows 0 b.leadEnds where
  ascending := b.ascending
  within := List.forall_mem_cons.2 ⟨Nat.zero_le _, b.within⟩

theorem getElem?_leads (i : ℕ) : b.leads[i]? =
    b.starts[i]?.map fun a => (b.rows.take (b.starts[i + 1]?.getD b.rows.length)).drop a :=
  getElem?_cut b.cuts i

theorem length_starts : b.starts.length = b.leadCount := by
  have same : ∀ i, b.starts.length ≤ i ↔ b.leadCount ≤ i := fun i => by
    rw [leadCount, ← List.getElem?_eq_none_iff, ← List.getElem?_eq_none_iff, getElem?_leads,
      Option.map_eq_none_iff]
  exact eq_of_forall_ge_iff same

theorem lead_eq_ok_iff {number : ℤ} {l : List (Row s)} :
    b.lead number = .ok l ↔ 0 ≤ number ∧ b.leads[number.toNat]? = some l := by
  rw [lead]
  by_cases nonneg : 0 ≤ number
  · rw [if_pos nonneg]
    cases b.leads[number.toNat]? <;> simp [nonneg]
  · rw [if_neg nonneg]
    simp [nonneg]

theorem lead_natCast_eq_ok_iff {i : ℕ} {l : List (Row s)} :
    b.lead i = .ok l ↔ b.leads[i]? = some l := by
  simp [lead_eq_ok_iff]

/-- There is no lead beyond the number of leads, and none before the first. -/
theorem lead_eq_error {number : ℤ} (h : ¬ (0 ≤ number ∧ number < b.leadCount)) :
    b.lead number = .error (.noLead number) := by
  rw [lead]
  split_ifs with nonneg
  · have beyond : b.leads[number.toNat]? = none := by
      rw [List.getElem?_eq_none_iff, ← leadCount]
      omega
    rw [beyond]
  · rfl

theorem mapM_lead : (List.range b.leadCount).mapM (fun i : ℕ => b.lead i) = .ok b.leads := by
  rw [mapM_eq_ok_iff, List.forall₂_iff_get]
  refine ⟨by simp [leadCount], fun i hi hi' => ?_⟩
  simp [lead_natCast_eq_ok_iff]

/-! ## Positions -/

/-- The ends up to an offset are the first ones, as many as leads come before its lead. -/
theorem take_locate (j : ℕ) :
    b.leadEnds.take (b.locate j).lead = b.leadEnds.takeWhile (· ≤ j) :=
  (List.prefix_iff_eq_take.1 (List.takeWhile_prefix _)).symm

/-- Lead and index tell the offset. -/
theorem locate_add (j : ℕ) :
    (b.leadEnds.take (b.locate j).lead).getLastD 0 + (b.locate j).index = j := by
  have le : (b.leadEnds.takeWhile (· ≤ j)).getLastD 0 ≤ j := by
    rw [List.getLastD_eq_getLast?]
    cases last : (b.leadEnds.takeWhile (· ≤ j)).getLast? with
    | none => exact Nat.zero_le j
    | some e => simpa using List.mem_takeWhile_imp (List.mem_of_getLast? last)
  rw [take_locate, locate]
  exact Nat.add_sub_cancel' le

theorem position_eq_ok_iff {offset : ℤ} {pos : Position} :
    b.position offset = .ok pos ↔
      (0 ≤ offset ∧ offset < b.rows.length) ∧ pos = b.locate offset.toNat := by
  rw [position]
  split_ifs with h
  · simp [h, eq_comm]
  · simp [h]

/-! ## The partition -/

/-- Where a lead begins stands its first row. -/
theorem getElem?_rows_of_start {i a : ℕ} {l : List (Row s)} {r : Row s}
    (here : b.starts[i]? = some a) (there : b.leads[i]? = some l) (first : l[0]? = some r) :
    b.rows[a]? = some r := by
  rw [getElem?_leads, here, Option.map_some, Option.some_inj] at there
  rw [← there, List.getElem?_drop, Nat.add_zero, List.getElem?_take] at first
  split at first
  · exact first
  · cases first

/-- The first rows of the leads, which all have one. -/
theorem exists_heads : ∃ heads : List (Row s), b.leadHeads = heads ++ [b.leftover] ∧
    List.Forall₂ (fun l h => l[0]? = some h) b.leads heads ∧
    List.Forall₂ (fun a h => b.rows[a]? = some h) b.starts heads := by
  have first : ∀ l ∈ b.leads, l[0]? = some (l.headD b.leftover) := fun l hl => by
    obtain ⟨r, rs, rfl⟩ := List.exists_cons_of_ne_nil (ne_nil_of_mem_cut b.cuts l hl)
    rfl
  refine ⟨b.leads.map (·.headD b.leftover), ?_, ?_, ?_⟩
  · rw [leadHeads, List.filterMap_eq_map_iff_forall_eq_some.2]
    simpa [List.head?_eq_getElem?] using first
  · rw [List.forall₂_map_right_iff, List.forall₂_same]
    exact first
  · rw [List.forall₂_map_right_iff, List.forall₂_iff_get]
    refine ⟨b.length_starts, fun i hi hi' => ?_⟩
    exact b.getElem?_rows_of_start (List.getElem?_eq_getElem hi) (List.getElem?_eq_getElem hi')
      (first _ (List.getElem_mem hi'))

/-- **The leads part the rows of a block.** One after another, none of them empty, they are the
rows, and no lead has another number. Each goes from one of the offsets at which leads begin up to
the next, and what stands there are the lead heads, but for the leftover row, which is the last of
them. An offset lies in one of the leads, at an index at which that lead has the row of the offset,
and no other offset has this lead and index. -/
theorem leads_part_rows :
    (∃ leads heads, (List.range b.leadCount).mapM (fun i : ℕ => b.lead i) = .ok leads ∧
      (∀ l ∈ leads, l ≠ []) ∧ leads.flatten = b.rows ∧
      b.leadHeads = heads ++ [b.leftover] ∧
      List.Forall₂ (fun l h => l[0]? = some h) leads heads ∧
      List.Forall₂ (fun a h => b.rows[a]? = some h) b.starts heads) ∧
    (∀ number : ℤ, ¬ (0 ≤ number ∧ number < b.leadCount) →
      b.lead number = .error (.noLead number)) ∧
    (∀ (i a : ℕ), b.starts[i]? = some a →
      b.lead i = .ok ((b.rows.take (b.starts[i + 1]?.getD b.rows.length)).drop a)) ∧
    (∀ offset : ℤ, 0 ≤ offset → offset < b.rows.length →
      ∃ pos l, b.position offset = .ok pos ∧ pos.offset = offset ∧ pos.lead < b.leadCount ∧
        b.lead pos.lead = .ok l ∧ pos.index < l.length ∧
        l[pos.index]? = b.rows[offset.toNat]?) ∧
    ∀ (j k : ℤ) pos pos', b.position j = .ok pos → b.position k = .ok pos' →
      pos.lead = pos'.lead → pos.index = pos'.index → j = k := by
  refine ⟨?_, fun number => b.lead_eq_error, fun i a here => ?_, fun offset low high => ?_,
    fun j k pos pos' hj hk lead index => ?_⟩
  · obtain ⟨heads, leadHeads, first, standing⟩ := b.exists_heads
    exact ⟨b.leads, heads, b.mapM_lead, ne_nil_of_mem_cut b.cuts, flatten_cut 0 b.leadEnds b.rows,
      leadHeads, first, standing⟩
  · rw [lead_natCast_eq_ok_iff, getElem?_leads, here, Option.map_some]
  · obtain ⟨j, rfl⟩ := Int.eq_ofNat_of_zero_le low
    have within : j < b.rows.length := by omega
    obtain ⟨l, here, row⟩ := exists_getElem?_cut b.cuts (Nat.zero_le j) within
    have inside : (b.locate j).index < l.length := by
      rw [List.getElem?_eq_getElem within] at row
      exact (List.getElem?_eq_some_iff.1 row).1
    exact ⟨b.locate j, l, b.position_eq_ok_iff.2 ⟨⟨low, high⟩, rfl⟩, rfl,
      (List.getElem?_eq_some_iff.1 here).1, b.lead_natCast_eq_ok_iff.2 here, inside, row⟩
  · obtain ⟨⟨low, -⟩, rfl⟩ := b.position_eq_ok_iff.1 hj
    obtain ⟨⟨low', -⟩, rfl⟩ := b.position_eq_ok_iff.1 hk
    have same := b.locate_add j.toNat
    rw [lead, index, locate_add] at same
    omega

/-- Three bells, with two leads that are complete and a row after them. -/
theorem leads_part_rows_three_bells :
    let s : Stage := ⟨3, by decide, by decide⟩
    let r : Row s := .rounds s
    let q : Row s := .backrounds s
    let b : Block s := ⟨[r, q, q, r, q], r, [1, 4], by decide, by decide⟩
    b.leadCount = 3 ∧ b.leadHeads = [r, q, q, r] ∧ b.starts = [0, 1, 4] ∧
      b.lead 1 = .ok [q, q, r] ∧ b.lead 2 = .ok [q] ∧ b.lead (-1) = .error (.noLead (-1)) ∧
      ∃ pos l, b.position 3 = .ok pos ∧ b.lead pos.lead = .ok l ∧ l[pos.index]? = some r := by
  intro s r q b
  obtain ⟨-, none, between, positions, -⟩ := b.leads_part_rows
  obtain ⟨pos, l, here, -, -, lead, -, row⟩ := positions 3 (by decide) (by decide)
  exact ⟨rfl, rfl, rfl, between 1 1 rfl, between 2 4 rfl, none (-1) (by decide), pos, l, here,
    lead, row⟩

end Campanology.Block
