import Mathlib.Algebra.BigOperators.Group.List.Basic
import Mathlib.Data.List.Basic
import Campanology.Proofs.Row.Group
import Campanology.Ringing.Repetition

/-!
# What repeated leads ring

The changes of a lead, made one after another, multiply the row by their product from the right
(`foldl_next`), so that the lead begun after `i` leads begins with the seed times the `i`-th power
of the product. A touch of so many leads is told by this alone: its rows, its last row and its lead
ends (`toList_rows_ringLeads`, `last_ringLeads`, `leadEnds_ringLeads`), and from them the leads of
the block that is rung (`leads_ringingLeads`).

Ringing until rounds rings the least number of leads, at least one, that leads to rounds; if the
budget has no such number, it is used up (`ringToRounds_of_first`, `ringToRounds_of_never`).
-/

namespace Campanology

variable {s : Stage}

/-! ## The rows of a lead -/

namespace Change

/-- The row to which changes lead from rounds. -/
def product (cs : List (Change s)) : Row s := (cs.map Change.row).prod

@[simp] theorem product_nil : product ([] : List (Change s)) = 1 := rfl

theorem product_cons (c : Change s) (cs : List (Change s)) :
    product (c :: cs) = c.row * product cs := by
  simp [product]

theorem product_append (cs ds : List (Change s)) :
    product (cs ++ ds) = product cs * product ds := by
  simp [product]

theorem foldl_next (cs : List (Change s)) (r : Row s) :
    cs.foldl (fun r c => c.next r) r = r * product cs := by
  induction cs generalizing r with
  | nil => simp
  | cons c cs ih => rw [List.foldl_cons, ih, product_cons, next, mul_assoc]

/-- The rows from which the changes are made, beginning with `r`. -/
def rung (r : Row s) : List (Change s) → List (Row s)
  | [] => []
  | c :: cs => r :: rung (c.next r) cs

@[simp] theorem length_rung (r : Row s) (cs : List (Change s)) :
    (rung r cs).length = cs.length := by
  induction cs generalizing r with
  | nil => rfl
  | cons c cs ih => simp [rung, ih]

theorem rung_append (r : Row s) (cs ds : List (Change s)) :
    rung r (cs ++ ds) = rung r cs ++ rung (r * product cs) ds := by
  induction cs generalizing r with
  | nil => simp [rung]
  | cons c cs ih =>
    rw [List.cons_append, rung, ih, rung, product_cons, next, mul_assoc]
    rfl

theorem head?_rung (r : Row s) {cs : List (Change s)} (ne : cs ≠ []) :
    (rung r cs).head? = some r := by
  cases cs with
  | nil => exact absurd rfl ne
  | cons c cs => rfl

end Change

open Change

/-! ## Leads of a touch -/

namespace Touch

theorem ringAll_cons (t : Touch s) (c : Change s) (cs : List (Change s)) :
    t.ringAll (c :: cs) = (t.ring c).ringAll cs := rfl

theorem toList_rows_ringAll (t : Touch s) (cs : List (Change s)) :
    (t.ringAll cs).rows.toList = t.rows.toList ++ rung t.last cs := by
  induction cs generalizing t with
  | nil => simp [ringAll, rung]
  | cons c cs ih =>
    rw [ringAll_cons, ih]
    simp [ring, rung]

theorem last_ringAll (t : Touch s) (cs : List (Change s)) :
    (t.ringAll cs).last = t.last * product cs := by
  induction cs generalizing t with
  | nil => simp [ringAll]
  | cons c cs ih =>
    rw [ringAll_cons, ih, product_cons, ← mul_assoc]
    rfl

theorem leadEnds_ringAll (t : Touch s) (cs : List (Change s)) :
    (t.ringAll cs).leadEnds = t.leadEnds := by
  induction cs generalizing t with
  | nil => rfl
  | cons c cs ih =>
    rw [ringAll_cons, ih]
    rfl

theorem size_rows_ringAll (t : Touch s) (cs : List (Change s)) :
    (t.ringAll cs).rows.size = t.rows.size + cs.length := by
  simpa using congrArg List.length (t.toList_rows_ringAll cs)

theorem lastEnd_le (t : Touch s) : t.lastEnd ≤ t.rows.size := by
  rw [lastEnd_eq, List.getLastD_eq_getLast?]
  cases h : t.leadEnds.toList.getLast? with
  | none => exact Nat.zero_le _
  | some e => exact t.within e (List.mem_of_getLast? h)

variable {lead : List (Change s)} (ne : lead ≠ [])

include ne in
/-- A lead which has changes has rows, so that its end is marked. -/
theorem ringLead_eq (t : Touch s) :
    ∃ h, t.ringLead lead = (t.ringAll lead).closeLead h := by
  have rows := t.size_rows_ringAll lead
  have before : (t.ringAll lead).lastEnd = t.lastEnd := by
    rw [lastEnd, leadEnds_ringAll, ← lastEnd]
  have marked : (t.ringAll lead).lastEnd < (t.ringAll lead).rows.size := by
    have := t.lastEnd_le
    have := List.length_pos_iff.2 ne
    omega
  exact ⟨marked, dif_pos marked⟩

theorem ringLeads_succ (t : Touch s) (count : ℕ) :
    t.ringLeads lead (count + 1) = (t.ringLeads lead count).ringLead lead := by
  induction count generalizing t with
  | zero => rfl
  | succ count ih => exact ih (t.ringLead lead)

include ne

theorem last_ringLeads (t : Touch s) (count : ℕ) :
    (t.ringLeads lead count).last = t.last * product lead ^ count := by
  induction count with
  | zero => simp [ringLeads]
  | succ count ih =>
    obtain ⟨marked, e⟩ := ringLead_eq ne (t.ringLeads lead count)
    rw [ringLeads_succ, e, pow_succ, ← mul_assoc, ← ih, ← last_ringAll]
    rfl

theorem toList_rows_ringLeads (t : Touch s) (count : ℕ) :
    (t.ringLeads lead count).rows.toList = t.rows.toList ++
      (List.range count).flatMap fun i => rung (t.last * product lead ^ i) lead := by
  induction count with
  | zero => simp [ringLeads]
  | succ count ih =>
    obtain ⟨marked, e⟩ := ringLead_eq ne (t.ringLeads lead count)
    have rows : ((t.ringLeads lead count).ringLead lead).rows.toList =
        (t.ringLeads lead count).rows.toList ++ rung (t.ringLeads lead count).last lead := by
      rw [e, ← toList_rows_ringAll]
      rfl
    rw [ringLeads_succ, rows, ih, last_ringLeads ne, List.range_succ, List.flatMap_append,
      List.append_assoc]
    simp

theorem size_rows_ringLeads (t : Touch s) (count : ℕ) :
    (t.ringLeads lead count).rows.size = t.rows.size + count * lead.length := by
  have h := congrArg List.length (toList_rows_ringLeads ne t count)
  simpa [List.length_flatMap] using h

theorem leadEnds_ringLeads (t : Touch s) (count : ℕ) :
    (t.ringLeads lead count).leadEnds.toList = t.leadEnds.toList ++
      (List.range count).map fun i => t.rows.size + (i + 1) * lead.length := by
  induction count with
  | zero => simp [ringLeads]
  | succ count ih =>
    obtain ⟨marked, e⟩ := ringLead_eq ne (t.ringLeads lead count)
    have ends : ((t.ringLeads lead count).ringLead lead).leadEnds.toList =
        (t.ringLeads lead count).leadEnds.toList ++
          [(t.ringLeads lead count).rows.size + lead.length] := by
      rw [e, closeLead, Array.toList_push, leadEnds_ringAll, size_rows_ringAll]
    rw [ringLeads_succ, ends, ih, size_rows_ringLeads ne, List.range_succ, List.map_append,
      List.append_assoc, Nat.add_assoc, ← Nat.succ_mul]
    rfl

theorem size_leadEnds_ringLeads (t : Touch s) (count : ℕ) :
    (t.ringLeads lead count).leadEnds.size = t.leadEnds.size + count := by
  simpa using congrArg List.length (leadEnds_ringLeads ne t count)

omit ne

/-! ## Until rounds -/

/-- Ringing until rounds stops with the first lead that leads to rounds. -/
theorem ringToRounds_of_first {budget count : ℕ} {t : Touch s} (pos : 0 < count)
    (le : count ≤ budget) (closes : (t.ringLeads lead count).last = 1)
    (first : ∀ k, 0 < k → k < count → (t.ringLeads lead k).last ≠ 1) :
    t.ringToRounds lead budget = .ok (t.ringLeads lead count) := by
  induction budget generalizing t count with
  | zero => omega
  | succ budget ih =>
    obtain ⟨count, rfl⟩ := Nat.exists_eq_succ_of_ne_zero (Nat.ne_of_gt pos)
    rw [ringToRounds]
    rcases Nat.eq_zero_or_pos count with rfl | more
    · exact if_pos (Row.isRounds_iff.2 closes)
    · have on : ¬ (t.ringLead lead).last.isRounds = true := fun h =>
        first 1 Nat.one_pos (by omega) (Row.isRounds_iff.1 h)
      rw [if_neg on, ih more (by omega) closes fun k hk hlt => first (k + 1) (by omega) (by omega)]
      rfl

/-- Ringing until rounds uses up its budget if no lead of it leads to rounds. -/
theorem ringToRounds_of_never {budget : ℕ} {t : Touch s}
    (never : ∀ k, 0 < k → k ≤ budget → (t.ringLeads lead k).last ≠ 1) :
    t.ringToRounds lead budget =
      .error ⟨(t.ringLeads lead budget).rows.size, (t.ringLeads lead budget).leadEnds.size,
        (t.ringLeads lead budget).last⟩ := by
  induction budget generalizing t with
  | zero => rfl
  | succ budget ih =>
    have on : ¬ (t.ringLead lead).last.isRounds = true := fun h =>
      never 1 Nat.one_pos (by omega) (Row.isRounds_iff.1 h)
    rw [ringToRounds, if_neg on, ih fun k hk hle => never (k + 1) (by omega) (by omega)]
    rfl

section Start

variable (ne : lead ≠ []) {seed : Row s}

include ne

/-- From a seed, ringing stops with the first power of the lead's row that leads to rounds. -/
theorem ringToRounds_start_of_first {budget count : ℕ} (pos : 0 < count) (le : count ≤ budget)
    (closes : seed * product lead ^ count = 1)
    (first : ∀ k, 0 < k → k < count → seed * product lead ^ k ≠ 1) :
    (start seed).ringToRounds lead budget = .ok ((start seed).ringLeads lead count) := by
  have last := last_ringLeads ne (start seed)
  refine ringToRounds_of_first pos le ((last count).trans closes) fun k hk lt => ?_
  rw [last]
  exact first k hk lt

theorem ringToRounds_start_of_never {budget : ℕ}
    (never : ∀ k, 0 < k → k ≤ budget → seed * product lead ^ k ≠ 1) :
    (start seed).ringToRounds lead budget =
      .error ⟨budget * lead.length, budget, seed * product lead ^ budget⟩ := by
  have last := last_ringLeads ne (start seed)
  have rows : ((start seed).ringLeads lead budget).rows.size = budget * lead.length :=
    (size_rows_ringLeads ne _ budget).trans (Nat.zero_add _)
  have leads : ((start seed).ringLeads lead budget).leadEnds.size = budget :=
    (size_leadEnds_ringLeads ne _ budget).trans (Nat.zero_add _)
  rw [ringToRounds_of_never, rows, leads, last]
  · rfl
  · intro k hk le
    rw [last]
    exact never k hk le

end Start

end Touch

/-! ## Leads of a block -/

/-- Cutting pieces of one length, put together, at their ends yields the pieces. -/
theorem Block.cut_flatMap {α : Type} {length : ℕ} (f : ℕ → List α)
    (h : ∀ i, (f i).length = length) (start count : ℕ) :
    Block.cut start ((List.range count).map fun i => start + (i + 1) * length)
      ((List.range count).flatMap f) = (List.range count).map f := by
  induction count generalizing start f with
  | zero => rfl
  | succ count ih =>
    have ends : (List.range count).map ((fun i => start + (i + 1) * length) ∘ Nat.succ) =
        (List.range count).map fun i => start + length + (i + 1) * length :=
      List.map_congr_left fun i _ => by simp only [Function.comp_apply, Nat.succ_mul]; omega
    rw [List.range_succ_eq_map, List.map_cons, List.map_cons, List.flatMap_cons, List.map_map,
      ends, List.map_map, List.flatMap_map, Block.cut, Nat.zero_add, Nat.one_mul,
      Nat.add_sub_cancel_left, ← h 0, List.take_left, List.drop_left, h 0]
    exact congrArg (f 0 :: ·) (ih (fun i => f (i + 1)) (fun i => h _) _)

section Leads

variable (seed : Row s) {lead : List (Change s)} (ne : lead ≠ []) (count : ℕ)

include ne

theorem rows_ringingLeads : (ringingLeads seed lead count).rows =
    (List.range count).flatMap fun i => rung (seed * product lead ^ i) lead :=
  Touch.toList_rows_ringLeads ne (Touch.start seed) count

theorem length_rows_ringingLeads :
    (ringingLeads seed lead count).rows.length = count * lead.length := by
  simp [rows_ringingLeads seed ne, List.length_flatMap]

theorem leftover_ringingLeads :
    (ringingLeads seed lead count).leftover = seed * product lead ^ count :=
  Touch.last_ringLeads ne (Touch.start seed) count

theorem leadEnds_ringingLeads : (ringingLeads seed lead count).leadEnds =
    (List.range count).map fun i => (i + 1) * lead.length := by
  refine (Touch.leadEnds_ringLeads ne (Touch.start seed) count).trans ?_
  simp [Touch.start]

/-- The leads of the block are those that are rung, each from the next power of the lead head. -/
theorem leads_ringingLeads : (ringingLeads seed lead count).leads =
    (List.range count).map fun i => rung (seed * product lead ^ i) lead := by
  have pieces := Block.cut_flatMap (fun i => rung (seed * product lead ^ i) lead)
    (fun i => length_rung _ lead) 0 count
  rw [Block.leads, leadEnds_ringingLeads seed ne, rows_ringingLeads seed ne]
  simpa only [Nat.zero_add] using pieces

theorem leadCount_ringingLeads : (ringingLeads seed lead count).leadCount = count := by
  rw [Block.leadCount, leads_ringingLeads seed ne, List.length_map, List.length_range]

theorem leadHeads_ringingLeads : (ringingLeads seed lead count).leadHeads =
    (List.range count).map (fun i => seed * product lead ^ i) ++
      [(ringingLeads seed lead count).leftover] := by
  have heads : List.head? ∘ (fun i => rung (seed * product lead ^ i) lead) =
      fun i => some (seed * product lead ^ i) :=
    funext fun i => head?_rung _ ne
  rw [Block.leadHeads, leads_ringingLeads seed ne, List.filterMap_map, heads,
    List.filterMap_eq_map']

end Leads

end Campanology
