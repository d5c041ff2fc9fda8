import Campanology.Stage

/-!
# Rows

A row is an order in which all the bells of a stage are rung once: the bell in the first place, the
bell in the second, and so on. It is kept as that list of bells, with the proof that no bell rings
twice; as there are as many places as bells, every bell then rings somewhere (`exists_bellAt`), so
that each bell has a place (`placeOf`).

Places and bells are both numbered from 0 up to the stage, and so a row is also a permutation; the
product of two rows is in `Campanology.Row.Algebra`.
-/

namespace Campanology

/-- A row of a stage. -/
structure Row (s : Stage) where
  /-- The bell in each place. -/
  bells : Vector (Fin s.bells) s.bells
  injective : ∀ p q : Fin s.bells, bells[p] = bells[q] → p = q
  deriving DecidableEq

namespace Row

variable {s : Stage}

/-- The bell in a place. -/
@[inline] def bellAt (r : Row s) (p : Fin s.bells) : Fin s.bells := r.bells[p]

instance : Hashable (Row s) where
  hash r := r.bells.toArray.foldl (fun h b => 37 * h + b.val.toUInt64) 0

/-! ## Building and comparing rows -/

/-- The row with the given bell in each place. -/
def ofFn (f : Fin s.bells → Fin s.bells) (h : ∀ p q, f p = f q → p = q) : Row s where
  bells := Vector.ofFn f
  injective p q hpq := h p q (by simpa using hpq)

@[simp] theorem bellAt_ofFn (f : Fin s.bells → Fin s.bells) (h : ∀ p q, f p = f q → p = q)
    (p : Fin s.bells) : (ofFn f h).bellAt p = f p := by
  simp [bellAt, ofFn]

@[ext] theorem ext {a b : Row s} (h : ∀ p, a.bellAt p = b.bellAt p) : a = b := by
  obtain ⟨u, hu⟩ := a
  obtain ⟨v, hv⟩ := b
  have : u = v := Vector.ext fun i hi => h ⟨i, hi⟩
  subst this
  rfl

theorem bellAt_inj {r : Row s} {p q : Fin s.bells} : r.bellAt p = r.bellAt q ↔ p = q :=
  ⟨fun h => r.injective p q h, fun h => h ▸ rfl⟩

/-- The bells in their order. -/
def toList (r : Row s) : List Nat := r.bells.toList.map Fin.val

/-- Rounds: every bell in its own place. -/
def rounds (s : Stage) : Row s := ofFn (fun p => p) fun _ _ h => h

/-- Rounds backwards, the tenor leading. -/
def backrounds (s : Stage) : Row s := ofFn Fin.rev fun _ _ h => Fin.rev_inj.1 h

@[simp] theorem bellAt_rounds (p : Fin s.bells) : (rounds s).bellAt p = p := by
  simp [rounds]

@[simp] theorem bellAt_backrounds (p : Fin s.bells) : (backrounds s).bellAt p = p.rev := by
  simp [backrounds]

/-- Whether a row is rounds. -/
def isRounds (r : Row s) : Bool := r = rounds s

/-! ## The place of a bell -/

/-- There is no room for `n + 1` different values among `n`. -/
theorem not_injective_of_succ :
    ∀ {n : Nat} (f : Fin (n + 1) → Fin n), ¬ ∀ i j, f i = f j → i = j
  | 0, f, _ => (f 0).elim0
  | n + 1, f, h => by
    -- take out the value of the last argument and close the gap it leaves
    let last := f (Fin.last (n + 1))
    have ne : ∀ i : Fin (n + 1), f i.castSucc ≠ last := fun i e =>
      absurd (h _ _ e) (Fin.ne_of_lt (Fin.castSucc_lt_last i))
    have small : ∀ i : Fin (n + 1), ¬ (f i.castSucc).val < last.val → (f i.castSucc).val - 1 < n :=
      fun i hi => by have := (f i.castSucc).isLt; have := ne i; omega
    have below : ∀ i : Fin (n + 1), (f i.castSucc).val < last.val → (f i.castSucc).val < n :=
      fun i hi => by have := last.isLt; omega
    refine not_injective_of_succ (fun i : Fin (n + 1) =>
      if hi : (f i.castSucc).val < last.val then ⟨_, below i hi⟩ else ⟨_, small i hi⟩) ?_
    intro i j hij
    have hi := ne i
    have hj := ne j
    have same : f i.castSucc = f j.castSucc := by
      apply Fin.ext
      split at hij <;> split at hij <;> simp only [Fin.mk.injEq] at hij <;> omega
    exact Fin.castSucc_inj.1 (h _ _ same)

/-- Every bell rings in some place. -/
theorem exists_bellAt (r : Row s) (b : Fin s.bells) : ∃ p, r.bellAt p = b := by
  apply Classical.byContradiction
  intro none
  -- with `b` missing, a further place could ring it
  have hne : ∀ p, r.bellAt p ≠ b := fun p e => none ⟨p, e⟩
  refine @not_injective_of_succ s.bells
    (fun i => if h : i.val < s.bells then r.bellAt ⟨i, h⟩ else b) ?_
  intro i j hij
  have hi := i.isLt
  have hj := j.isLt
  split at hij <;> split at hij
  · exact Fin.ext (by simpa using r.injective _ _ hij)
  · exact absurd hij (hne _)
  · exact absurd hij.symm (hne _)
  · apply Fin.ext; omega

/-- The place of a bell, if it is found. -/
def placeOf? (r : Row s) (b : Fin s.bells) : Option (Fin s.bells) :=
  (List.finRange s.bells).find? fun p => r.bellAt p = b

theorem isSome_placeOf? (r : Row s) (b : Fin s.bells) : (r.placeOf? b).isSome = true := by
  obtain ⟨p, hp⟩ := r.exists_bellAt b
  simp only [placeOf?, List.find?_isSome]
  exact ⟨p, List.mem_finRange p, by simpa using hp⟩

/-- The place of a bell. -/
def placeOf (r : Row s) (b : Fin s.bells) : Fin s.bells :=
  (r.placeOf? b).get (r.isSome_placeOf? b)

@[simp] theorem bellAt_placeOf (r : Row s) (b : Fin s.bells) : r.bellAt (r.placeOf b) = b := by
  have h : r.placeOf? b = some (r.placeOf b) := by simp [placeOf]
  simpa using List.find?_some h

@[simp] theorem placeOf_bellAt (r : Row s) (p : Fin s.bells) : r.placeOf (r.bellAt p) = p :=
  r.injective _ _ (r.bellAt_placeOf (r.bellAt p))

/-! ## Text -/

/-- The symbols of the bells in their order. -/
def text (r : Row s) : String := symbols r.toList

/-- A row as it is shown in a listing. -/
def describe (r : Row s) : String := s!"Row({Text.quoted r.text})"

end Row

end Campanology
