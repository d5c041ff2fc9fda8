import Mathlib.Order.Bounds.Basic
import Campanology.Text.EditDistance

/-!
# The least number of edits

An edit inserts, deletes or replaces one character somewhere in a text (`Edit`). The distance of two
texts is the least number of edits that turn one into the other, whatever the edits are and in
whatever order they come (`isLeast_editDistance`).

The rows in which the distance is found hold the distances from the end pieces of a text, which
gives its recursion (`editDistance_cons_cons`). From this the distance is attained, by edits from
the front of the text backwards (`edits_editDistance`). It is least because one edit of a text
changes its distance from any other by no more than one (`Edit.editDistance_le`); an edit is at the
front of an end piece, and what stands before this is the same in both texts
(`editDistance_le_of_cons`).
-/

namespace Campanology.Text

variable {α : Type}

/-! ## Edits -/

/-- One character is inserted, deleted or replaced. -/
inductive Edit : List α → List α → Prop
  | insert (before : List α) (c : α) (after : List α) :
      Edit (before ++ after) (before ++ c :: after)
  | delete (before : List α) (c : α) (after : List α) :
      Edit (before ++ c :: after) (before ++ after)
  | replace (before : List α) (c d : α) (after : List α) :
      Edit (before ++ c :: after) (before ++ d :: after)

/-- So many edits, one after another. -/
inductive Edits : ℕ → List α → List α → Prop
  | done (xs : List α) : Edits 0 xs xs
  | step {n : ℕ} {xs ys zs : List α} (first : Edit xs ys) (rest : Edits n ys zs) :
      Edits (n + 1) xs zs

theorem Edit.cons {xs ys : List α} (h : Edit xs ys) (x : α) : Edit (x :: xs) (x :: ys) := by
  cases h with
  | insert before c after => exact .insert (x :: before) c after
  | delete before c after => exact .delete (x :: before) c after
  | replace before c d after => exact .replace (x :: before) c d after

/-- What is done to a text can be done behind a character. -/
theorem Edits.cons {n : ℕ} {xs ys : List α} (h : Edits n xs ys) (x : α) :
    Edits n (x :: xs) (x :: ys) := by
  induction h with
  | done xs => exact .done (x :: xs)
  | step first _ ih => exact .step (first.cons x) ih

/-! ## The recursion of the distance -/

variable [DecidableEq α]

/-- The row of a text against another. -/
def row (xs ys : List α) : List ℕ := xs.foldr (fun x row => nextRow x ys row) (emptyRow ys)

/-- Behind its first entry a row is that against the rest of the text. -/
theorem tail_row_cons (xs : List α) (y : α) (ys : List α) :
    (row xs (y :: ys)).tail = row xs ys := by
  induction xs with
  | nil => rfl
  | cons x xs ih =>
    change nextRow x ys (row xs (y :: ys)).tail = nextRow x ys (row xs ys)
    rw [ih]

@[simp] theorem editDistance_nil_left (ys : List α) : editDistance [] ys = ys.length := by
  cases ys <;> rfl

@[simp] theorem editDistance_nil_right (xs : List α) : editDistance xs [] = xs.length := by
  induction xs with
  | nil => rfl
  | cons x xs ih =>
    change editDistance xs [] + 1 = _
    rw [ih, List.length_cons]

/-- The first characters are matched, or the first of either text is left over. -/
theorem editDistance_cons_cons (x y : α) (xs ys : List α) :
    editDistance (x :: xs) (y :: ys) = min (editDistance xs ys + if x = y then 0 else 1)
      (min (editDistance xs (y :: ys) + 1) (editDistance (x :: xs) ys + 1)) := by
  change min ((row xs (y :: ys)).tail.headD 0 + if x = y then 0 else 1)
    (min ((row xs (y :: ys)).headD 0 + 1)
      ((nextRow x ys (row xs (y :: ys)).tail).headD 0 + 1)) = _
  rw [tail_row_cons]
  rfl

@[simp] theorem editDistance_self (xs : List α) : editDistance xs xs = 0 := by
  induction xs with
  | nil => rfl
  | cons x xs ih => simp [editDistance_cons_cons, ih]

theorem editDistance_cons_le (x : α) (xs ys : List α) :
    editDistance (x :: xs) ys ≤ editDistance xs ys + 1 := by
  cases ys with
  | nil => simp
  | cons y ys =>
    rw [editDistance_cons_cons]
    omega

theorem editDistance_le_cons (xs : List α) (y : α) (ys : List α) :
    editDistance xs (y :: ys) ≤ editDistance xs ys + 1 := by
  cases xs with
  | nil => simp
  | cons x xs =>
    rw [editDistance_cons_cons]
    omega

/-! ## The distance is attained -/

/-- As many edits as the distance counts turn one text into the other. -/
theorem edits_editDistance (xs ys : List α) : Edits (editDistance xs ys) xs ys := by
  induction xs generalizing ys with
  | nil =>
    induction ys with
    | nil => exact .done []
    | cons y ys ih =>
      rw [editDistance_nil_left] at ih ⊢
      exact .step (.insert [] y []) (ih.cons y)
  | cons x xs ihx =>
    induction ys with
    | nil =>
      have rest := ihx []
      rw [editDistance_nil_right] at rest ⊢
      exact .step (.delete [] x xs) rest
    | cons y ys ihy =>
      have choice :
          editDistance (x :: xs) (y :: ys) = editDistance xs ys + (if x = y then 0 else 1) ∨
          editDistance (x :: xs) (y :: ys) = editDistance xs (y :: ys) + 1 ∨
          editDistance (x :: xs) (y :: ys) = editDistance (x :: xs) ys + 1 := by
        rw [editDistance_cons_cons]
        omega
      obtain matched | deleted | inserted := choice
      · rw [matched]
        split
        · rename_i same
          exact same ▸ (ihx ys).cons x
        · exact .step (.replace [] x y xs) ((ihx ys).cons y)
      · rw [deleted]
        exact .step (.delete [] x xs) (ihx (y :: ys))
      · rw [inserted]
        exact .step (.insert [] y (x :: xs)) (ihy.cons y)

/-! ## The distance is least -/

/-- A character that is deleted in front brings no text nearer by more than one. -/
theorem editDistance_le_editDistance_cons (x : α) (xs zs : List α) :
    editDistance xs zs ≤ editDistance (x :: xs) zs + 1 := by
  induction zs with
  | nil =>
    simp only [editDistance_nil_right, List.length_cons]
    omega
  | cons z zs ih =>
    have longer := editDistance_le_cons xs z zs
    rw [editDistance_cons_cons]
    omega

theorem editDistance_replace_le (x y : α) (xs zs : List α) :
    editDistance (x :: xs) zs ≤ editDistance (y :: xs) zs + 1 := by
  induction zs with
  | nil => simp
  | cons z zs ih =>
    rw [editDistance_cons_cons, editDistance_cons_cons]
    split <;> split <;> omega

/-- What brings no text nearer by more than one does not behind a character either. -/
theorem editDistance_le_of_cons {xs ys : List α}
    (near : ∀ zs, editDistance xs zs ≤ editDistance ys zs + 1) (x : α) (zs : List α) :
    editDistance (x :: xs) zs ≤ editDistance (x :: ys) zs + 1 := by
  induction zs with
  | nil =>
    have short := near []
    simp only [editDistance_nil_right, List.length_cons] at short ⊢
    omega
  | cons z zs ih =>
    have both := near zs
    have left := near (z :: zs)
    rw [editDistance_cons_cons, editDistance_cons_cons]
    omega

theorem editDistance_append_le {xs ys : List α}
    (near : ∀ zs, editDistance xs zs ≤ editDistance ys zs + 1) (before zs : List α) :
    editDistance (before ++ xs) zs ≤ editDistance (before ++ ys) zs + 1 := by
  induction before generalizing zs with
  | nil => exact near zs
  | cons x before ih => exact editDistance_le_of_cons ih x zs

/-- One edit brings a text no nearer to another than by one. -/
theorem Edit.editDistance_le {xs ys : List α} (h : Edit xs ys) (zs : List α) :
    editDistance xs zs ≤ editDistance ys zs + 1 := by
  cases h with
  | insert before c after =>
    exact editDistance_append_le (editDistance_le_editDistance_cons c after) before zs
  | delete before c after =>
    exact editDistance_append_le (editDistance_cons_le c after) before zs
  | replace before c d after =>
    exact editDistance_append_le (editDistance_replace_le c d after) before zs

theorem Edits.editDistance_le {n : ℕ} {xs ys : List α} (h : Edits n xs ys) :
    editDistance xs ys ≤ n := by
  induction h with
  | done xs => rw [editDistance_self]
  | step first _ ih => exact (first.editDistance_le _).trans (Nat.succ_le_succ ih)

/-- **The distance is the least number of edits** that turn one text into the other. -/
theorem isLeast_editDistance (xs ys : List α) :
    IsLeast {n | Edits n xs ys} (editDistance xs ys) :=
  ⟨edits_editDistance xs ys, fun _ h => Edits.editDistance_le h⟩

end Campanology.Text
