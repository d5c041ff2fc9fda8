import Campanology.Row.Algebra

/-!
# Changes

A change takes one row to the next. A rope cannot be held back or let go for long, so from one row
to the next a bell stays in its place or moves to a neighbouring one: a change is a row in which
every bell is at most one place from home, and the row after `r` is `r * c.row`.

A change is told by the places that are *made* in it, where the bell stays. All other places swap in
pairs of neighbours. Going up from the lead, each place that is not made and not yet paired pairs
with the next one, which must then not be made either; only the top place of an odd stage may be
left over, and is then made too, without being told (`ofMade`).

* `places` lists the places made, the untold one included.
* `cross` is the change in which no place is made but that one.
* `text` writes a change: the symbols of its places, or `-` for the cross.
-/

namespace Campanology

/-- A change of a stage. -/
structure Change (s : Stage) where
  /-- The place that each place's bell comes from. -/
  row : Row s
  near : ∀ p, (row.bellAt p).val ≤ p.val + 1 ∧ p.val ≤ (row.bellAt p).val + 1
  deriving DecidableEq

namespace Change

/-! ## Pairing the places -/

/-- How many places right below `p` are not made. -/
def runBelow (made : Nat → Bool) : (p : Nat) → Nat
  | 0 => 0
  | p + 1 => if made p then 0 else runBelow made p + 1

/-- Whether, among `n` places, `p` is to pair with the next place up and cannot. -/
def unpaired (n : Nat) (made : Nat → Bool) (p : Nat) : Bool :=
  !made p && runBelow made p % 2 = 0 && if p + 1 < n then made (p + 1) else n % 2 = 0

/-- The lowest place which cannot be paired. -/
def firstUnpaired (n : Nat) (made : Nat → Bool) : Option Nat :=
  (List.range n).find? (unpaired n made)

/-- The place that `p` swaps with, itself if it stays. -/
def partner (n : Nat) (made : Nat → Bool) (p : Nat) : Nat :=
  if made p then p
  else if runBelow made p % 2 = 1 then p - 1
  else if p + 1 < n then p + 1
  else p

section Partner

variable {n : Nat} {made : Nat → Bool}

theorem not_unpaired (h : firstUnpaired n made = none) {p : Nat} (hp : p < n) :
    unpaired n made p = false := by
  simpa using List.find?_eq_none.1 h p (List.mem_range.2 hp)

theorem partner_lt {p : Nat} (hp : p < n) : partner n made p < n := by
  simp only [partner]
  split
  · exact hp
  split
  · omega
  split <;> omega

theorem partner_near (p : Nat) :
    partner n made p ≤ p + 1 ∧ p ≤ partner n made p + 1 := by
  simp only [partner]
  split
  · omega
  split
  · omega
  split <;> omega

theorem partner_partner (h : firstUnpaired n made = none) {p : Nat} (hp : p < n) :
    partner n made (partner n made p) = p := by
  by_cases stays : made p
  · simp [partner, stays]
  by_cases odd : runBelow made p % 2 = 1
  · -- `p` is the upper one of a pair
    cases p with
    | zero => simp [runBelow] at odd
    | succ q =>
      have hq : made q = false := by
        cases hq : made q
        · rfl
        · simp [runBelow, hq] at odd
      have even : ¬ runBelow made q % 2 = 1 := by
        simp only [runBelow, hq, Bool.false_eq_true, if_false] at odd
        omega
      simp [partner, stays, odd, hq, even, hp]
  · by_cases top : p + 1 < n
    · -- `p` is the lower one
      have up : made (p + 1) = false := by
        have hu := not_unpaired h hp
        have even : runBelow made p % 2 = 0 := by omega
        simpa [unpaired, stays, even, top] using hu
      have odd' : runBelow made (p + 1) % 2 = 1 := by
        simp only [runBelow, stays, Bool.false_eq_true, if_false]
        omega
      simp [partner, stays, odd, top, up, odd']
    · simp [partner, stays, odd, top]

end Partner

/-! ## Building changes -/

variable {s : Stage}

/-- The change that makes the given places, all others pairing up. -/
def ofPaired (s : Stage) (made : Nat → Bool) (h : firstUnpaired s.bells made = none) :
    Change s where
  row := Row.ofFn (fun p => ⟨partner s.bells made p, partner_lt p.isLt⟩) fun p q hpq => by
    have same : partner s.bells made p = partner s.bells made q := congrArg Fin.val hpq
    apply Fin.ext
    rw [← partner_partner h p.isLt, same, partner_partner h q.isLt]
  near p := by simpa using @partner_near s.bells made p.val

/-- The change that makes the given places, or else the lowest place that cannot be paired. -/
def ofMade (s : Stage) (made : Nat → Bool) : Except Nat (Change s) :=
  match h : firstUnpaired s.bells made with
  | none => .ok (ofPaired s made h)
  | some p => .error p

theorem runBelow_none (p : Nat) : runBelow (fun _ => false) p = p := by
  induction p with
  | zero => rfl
  | succ p ih => simp [runBelow, ih]

theorem firstUnpaired_none (n : Nat) : firstUnpaired n (fun _ => false) = none := by
  simp only [firstUnpaired, List.find?_eq_none, List.mem_range]
  intro p hp
  simp only [unpaired, runBelow_none]
  split
  · simp
  · simp; omega

/-- The change in which every pair of neighbours swaps. -/
def cross (s : Stage) : Change s := ofPaired s (fun _ => false) (firstUnpaired_none s.bells)

/-! ## Reading off a change -/

/-- The places made, in ascending order. -/
def places (c : Change s) : List Nat :=
  ((List.finRange s.bells).filter fun p => c.row.bellAt p = p).map Fin.val

/-- Whether a place is made. -/
def makes (c : Change s) (p : Int) : Bool := c.places.any fun q => (q : Int) = p

/-- Whether no place is made, but for the top place of an odd stage. -/
def isCross (c : Change s) : Bool :=
  c.places = if s.isOdd then [s.bells - 1] else []

/-- The row after `r`. -/
def next (c : Change s) (r : Row s) : Row s := r * c.row

/-- A change in writing. -/
def text (c : Change s) : String :=
  if c.isCross then "-" else symbols c.places

/-- The row after `r` under a change, if they are of one stage. -/
def apply (c : Staged Change) (r : Staged Row) : Except StageMismatch (Staged Row) := do
  let r ← r.require c.stage "apply"
  return .of (c.val.next r)

end Change

end Campanology
