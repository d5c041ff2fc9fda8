import Campanology.Proofs.Ringing.UntilRounds
import Campanology.Proofs.Ringing.History
import Campanology.Proofs.Row.Packed

/-!
# Ringing in bytes

The rows of a touch, its last row among them, are rung by adding to their strings, one change after
another, what a change makes of the last string (`bytes_ringAll`). Repeating a lead adds what its
changes make in their order and then again from the first one, up to the number of rows that are
rung (`bytes_ringing`).
-/

namespace Campanology

/-! ## Strings -/

namespace Packed

/-- Adds the row that a change makes of the last one. -/
def ring (rows : List (List ℕ)) (change : List ℕ) : List (List ℕ) :=
  rows ++ [mul (rows.getLastD []) change]

/-- So many changes of a lead, which is begun again when it is done. -/
def cycled (lead : List (List ℕ)) (count : ℕ) : List (List ℕ) :=
  (List.replicate (count / lead.length) lead).flatten ++ lead.take (count % lead.length)

end Packed

variable {s : Stage}

/-- Things of one stage differ as things of any stage do. -/
theorem staged_of_injective {α : Stage → Type} : Function.Injective (Staged.of : α s → Staged α) :=
  fun _ _ h => by
    cases h
    rfl

namespace Touch

/-! ## Touches -/

/-- The rows of a touch, the last one among them. -/
def allRows (t : Touch s) : List (Row s) := t.rows.toList ++ [t.last]

/-- The strings of the rows of a touch. -/
def bytes (t : Touch s) : List (List ℕ) := t.allRows.map Row.toList

theorem bytes_start (seed : Row s) : (start seed).bytes = [seed.toList] := rfl

theorem bytes_block (t : Touch s) : t.block.allRows.map Row.toList = t.bytes := rfl

theorem bytes_ring (t : Touch s) (c : Change s) :
    (t.ring c).bytes = Packed.ring t.bytes c.row.toList := by
  simp [bytes, allRows, ring, Packed.ring, Change.next, Row.toList_mul]

theorem bytes_ringAll (t : Touch s) (cs : List (Change s)) :
    (t.ringAll cs).bytes = (cs.map fun c => c.row.toList).foldl Packed.ring t.bytes := by
  induction cs generalizing t with
  | nil => rfl
  | cons c cs ih => rw [ringAll_cons, ih, bytes_ring, List.map_cons, List.foldl_cons]

/-- The end of a lead is marked without a row. -/
theorem bytes_ringLead (t : Touch s) (lead : List (Change s)) :
    (t.ringLead lead).bytes = (t.ringAll lead).bytes := by
  simp only [ringLead]
  split <;> rfl

theorem bytes_ringLeads (t : Touch s) (lead : List (Change s)) (count : ℕ) :
    (t.ringLeads lead count).bytes =
      (List.replicate count (lead.map fun c => c.row.toList)).flatten.foldl Packed.ring
        t.bytes := by
  induction count generalizing t with
  | zero => rfl
  | succ count ih =>
    rw [ringLeads, ih, bytes_ringLead, bytes_ringAll, List.replicate_succ, List.flatten_cons,
      List.foldl_append]

/-- Of changes asked for one after another, those that are made: all before the first refused. -/
def made (t : Touch s) : List (Staged Change) → List (Change s)
  | [] => []
  | c :: cs =>
    match t.extend c, c.at? s with
    | .ok t, some d => d :: t.made cs
    | _, _ => []

theorem made_cons_of_ok {t : Touch s} {c : Change s} (isOpen : t.phase ≠ .stood)
    (cs : List (Staged Change)) : t.made (.of c :: cs) = c :: (t.ring c).made cs := by
  rw [made, extend_eq_ok_iff.2 ⟨isOpen, c, rfl, rfl⟩, Staged.at?_of]

theorem made_cons_of_error {t : Touch s} {c : Staged Change} {f : TouchFault}
    (refused : t.extend c = .error f) (cs : List (Staged Change)) : t.made (c :: cs) = [] := by
  rw [made, refused]

/-- A run of changes makes those before the first refused. -/
theorem extendAll_made (t : Touch s) (cs : List (Staged Change)) :
    (t.extendAll cs).2 = t.ringAll (t.made cs) := by
  induction cs generalizing t with
  | nil => rfl
  | cons c cs ih =>
    rw [extendAll]
    cases h : t.extend c with
    | error f =>
      rw [made_cons_of_error h]
      rfl
    | ok t' =>
      obtain ⟨isOpen, d, rfl, rfl⟩ := extend_eq_ok_iff.1 h
      rw [made_cons_of_ok isOpen]
      exact ih (t.ring d)

theorem map_made_prefix (t : Touch s) (cs : List (Staged Change)) : (t.made cs).map .of <+: cs := by
  induction cs generalizing t with
  | nil => exact List.nil_prefix
  | cons c cs ih =>
    cases h : t.extend c with
    | error f =>
      rw [made_cons_of_error h]
      exact List.nil_prefix
    | ok t' =>
      obtain ⟨isOpen, d, rfl, rfl⟩ := extend_eq_ok_iff.1 h
      rw [made_cons_of_ok isOpen]
      exact List.prefix_cons_iff.2 (.inr ⟨_, List.map_cons .., ih (t.ring d)⟩)

/-- The rows that there are tell how many changes were made. -/
theorem extendAll_eq_of_size {t : Touch s} {cs : List (Staged Change)} {made : List (Change s)}
    (first : made.map .of <+: cs)
    (size : (t.extendAll cs).2.rows.size = t.rows.size + made.length) :
    (t.extendAll cs).2 = t.ringAll made := by
  rw [extendAll_made, size_rows_ringAll] at size
  have same : (t.made cs).map (Staged.of : Change s → Staged Change) = made.map .of :=
    (List.prefix_of_prefix_length_le (t.map_made_prefix cs) first (by simp; omega)).eq_of_length
      (by simp; omega)
  rw [extendAll_made, List.map_injective_iff.2 staged_of_injective same]

/-- Ringing that comes to rounds is ringing a number of leads. -/
theorem exists_ringLeads_of_ringToRounds {t t' : Touch s} {lead : List (Change s)} {budget : ℕ}
    (h : t.ringToRounds lead budget = .ok t') : ∃ count, t' = t.ringLeads lead count := by
  induction budget generalizing t with
  | zero => cases h
  | succ budget ih =>
    rw [ringToRounds] at h
    split at h
    · exact ⟨1, (Except.ok.inj h).symm⟩
    · obtain ⟨count, rfl⟩ := ih h
      exact ⟨count + 1, rfl⟩

end Touch

/-! ## Blocks -/

/-- Whatever the settings say, what is rung is a number of leads and a part of one. -/
theorem exists_ringLeads_of_ringing {seed : Row s} {lead : List (Change s)} (ne : lead ≠ [])
    {settings : Settings} {b : Block s} (h : ringing seed lead settings = .ok b) :
    ∃ count part, part < lead.length ∧
      b = (((Touch.start seed).ringLeads lead count).ringAll (lead.take part)).block := by
  have pos := List.length_pos_iff.2 ne
  rw [ringing] at h
  split at h
  · exact ⟨_, _, Nat.mod_lt _ pos, (Except.ok.inj h).symm⟩
  · exact ⟨_, 0, pos, (Except.ok.inj h).symm⟩
  · cases rung : (Touch.start seed).ringToRounds lead (settings.leadBudget lead.length) with
    | error f =>
      rw [rung] at h
      cases h
    | ok t =>
      rw [rung] at h
      obtain ⟨count, rfl⟩ := Touch.exists_ringLeads_of_ringToRounds rung
      exact ⟨count, 0, pos, (Except.ok.inj h).symm⟩

/-- **A lead is repeated string by string**, as many changes of it as rows are rung. -/
theorem bytes_ringing {seed : Row s} {lead : List (Change s)} (ne : lead ≠ [])
    {settings : Settings} {b : Block s} (h : ringing seed lead settings = .ok b) :
    b.allRows.map Row.toList =
      (Packed.cycled (lead.map fun c => c.row.toList) b.rows.length).foldl Packed.ring
        [seed.toList] := by
  obtain ⟨count, part, lt, rfl⟩ := exists_ringLeads_of_ringing ne h
  have rows :
      (((Touch.start seed).ringLeads lead count).ringAll (lead.take part)).block.rows.length =
        count * lead.length + part := by
    rw [Touch.block, Array.length_toList, Touch.size_rows_ringAll, Touch.size_rows_ringLeads ne,
      List.length_take_of_le lt.le]
    exact congrArg (· + part) (Nat.zero_add _)
  have pos := List.length_pos_iff.2 ne
  rw [rows, Packed.cycled, List.length_map, Nat.add_mod, Nat.mul_mod_left, Nat.zero_add,
    Nat.mod_mod, Nat.mod_eq_of_lt lt, Nat.mul_comm, Nat.mul_add_div pos, Nat.div_eq_of_lt lt,
    Nat.add_zero, List.foldl_append, ← List.map_take]
  rw [Touch.bytes_block, Touch.bytes_ringAll, Touch.bytes_ringLeads, Touch.bytes_start]

theorem ringing_of_ring {seed : Row s} {lead : List (Change s)} {settings : Option Settings}
    {b : Block s} (h : ring (.of seed) (lead.map .of) settings = .ok (.of b)) :
    lead ≠ [] ∧ ringing seed lead (settings.getD .standard) = .ok b := by
  have ne : lead ≠ [] := by
    rintro rfl
    cases h
  rw [ring_map_of seed ne] at h
  cases rung : ringing seed lead (settings.getD .standard) with
  | error f =>
    rw [rung] at h
    cases h
  | ok b' =>
    rw [rung] at h
    cases h
    exact ⟨ne, rfl⟩

end Campanology
