import Campanology.Block
import Campanology.Change.Basic

/-!
# Ringing change by change

A touch is ringing in progress. It begins with a seed, and its last row is the one that the next
change is made from: after `n` changes there are `n` rows before it, which make up the block that is
rung. The end of a lead is marked when the lead has rows. Once the ringers stand, and the block is
handed over, the touch refuses every change and every mark, and to be stood again.

* `ring` and `closeLead` are the two steps of ringing; the seed, the rows and the lead ends are all
  that they depend on.
* `extend`, `markLead` and `stand` are the steps as one may ask for them at any time, with changes
  of any stage; a step which is refused changes nothing. `extendAll` is a run of `extend`, of which
  the part before a refusal stays.
-/

namespace Campanology

/-- How far a touch is. -/
inductive Phase
  /-- Only the seed is there. -/
  | seed
  /-- Inside a lead. -/
  | insideLead
  /-- A lead has just been completed. -/
  | leadEnd
  /-- The ringers stand. -/
  | stood
  deriving DecidableEq

def Phase.text : Phase → String
  | seed => "seed"
  | insideLead => "extend"
  | leadEnd => "lead_boundary"
  | stood => "terminal"

/-- Why a touch refuses a step. -/
inductive TouchFault
  | stood
  | emptyLead
  | mismatch (m : StageMismatch)
  deriving DecidableEq

def TouchFault.message : TouchFault → String
  | stood => "BlockBuilder has already been finished"
  | emptyLead => "Cannot mark the end of an empty lead"
  | mismatch m => m.message

/-- Ringing in progress. -/
structure Touch (s : Stage) where
  /-- The rows before the last. -/
  rows : Array (Row s)
  /-- The row from which the next change is made. -/
  last : Row s
  leadEnds : Array Nat
  phase : Phase
  ascending : (0 :: leadEnds.toList).Pairwise (· < ·)
  within : ∀ e ∈ leadEnds.toList, e ≤ rows.size

namespace Touch

variable {s : Stage}

/-- A touch of which only the seed is there. -/
def start (seed : Row s) : Touch s :=
  ⟨#[], seed, #[], .seed, by simp, by simp⟩

/-! ## Ringing -/

/-- Makes a change. -/
def ring (t : Touch s) (c : Change s) : Touch s where
  rows := t.rows.push t.last
  last := c.next t.last
  leadEnds := t.leadEnds
  phase := .insideLead
  ascending := t.ascending
  within e he := by
    have := t.within e he
    simp only [Array.size_push]
    omega

/-- The end of the last complete lead. -/
def lastEnd (t : Touch s) : Nat := t.leadEnds.back?.getD 0

theorem lastEnd_eq (t : Touch s) : t.lastEnd = t.leadEnds.toList.getLastD 0 := by
  simp [lastEnd, List.getLastD_eq_getLast?]

theorem le_getLastD {l : List Nat} (h : (0 :: l).Pairwise (· < ·)) :
    ∀ e ∈ l, e ≤ l.getLastD 0 := by
  intro e he
  obtain ⟨before, z, rfl⟩ := (List.eq_nil_or_concat l).resolve_left (List.ne_nil_of_mem he)
  rw [List.concat_eq_append] at *
  rw [List.getLastD_concat]
  rcases List.mem_append.1 he with hm | hm
  · have pairs := (List.pairwise_append.1 (List.pairwise_cons.1 h).2).2.2
    exact Nat.le_of_lt (pairs e hm z (List.mem_singleton.2 rfl))
  · exact Nat.le_of_eq (List.mem_singleton.1 hm)

/-- Marks the end of a lead that has rows. -/
def closeLead (t : Touch s) (h : t.lastEnd < t.rows.size) : Touch s where
  rows := t.rows
  last := t.last
  leadEnds := t.leadEnds.push t.rows.size
  phase := .leadEnd
  ascending := by
    have below : ∀ e ∈ 0 :: t.leadEnds.toList, e < t.rows.size := by
      intro e he
      rcases List.mem_cons.1 he with rfl | he
      · omega
      · exact Nat.lt_of_le_of_lt (t.lastEnd_eq ▸ le_getLastD t.ascending e he) h
    rw [Array.toList_push, ← List.cons_append, List.pairwise_append]
    refine ⟨t.ascending, List.pairwise_singleton .., ?_⟩
    intro e he z hz
    rw [List.mem_singleton.1 hz]
    exact below e he
  within e he := by
    rw [Array.toList_push] at he
    rcases List.mem_append.1 he with he | he
    · exact t.within e he
    · exact Nat.le_of_eq (List.mem_singleton.1 he)

/-- The block rung so far. -/
def block (t : Touch s) : Block s :=
  ⟨t.rows.toList, t.last, t.leadEnds.toList, t.ascending, by simpa using t.within⟩

/-! ## Steps at any time -/

/-- Makes a change, if the ringers do not stand and the change is of their stage. -/
def extend (t : Touch s) (c : Staged Change) : Except TouchFault (Touch s) :=
  if t.phase = .stood then .error .stood
  else
    match c.at? s with
    | some c => .ok (t.ring c)
    | none => .error (.mismatch ⟨c.stage, s, "apply"⟩)

/-- Makes changes one after another up to the first that is refused, and tells the refusal. -/
def extendAll (t : Touch s) : List (Staged Change) → Option TouchFault × Touch s
  | [] => (none, t)
  | c :: cs =>
    match t.extend c with
    | .ok t => t.extendAll cs
    | .error fault => (some fault, t)

/-- Marks the end of a lead, if the ringers do not stand and the lead has rows. -/
def markLead (t : Touch s) : Except TouchFault (Touch s) :=
  if t.phase = .stood then .error .stood
  else if h : t.lastEnd < t.rows.size then .ok (t.closeLead h)
  else .error .emptyLead

/-- Hands over the block, after which the ringers stand. -/
def stand (t : Touch s) : Except TouchFault (Block s × Touch s) :=
  if t.phase = .stood then .error .stood
  else .ok (t.block, { t with phase := .stood })

end Touch

end Campanology
