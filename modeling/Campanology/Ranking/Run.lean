import Campanology.Ranking.Search

/-!
# Runs

A list is cut into *runs*, which count as sorted. A run is the longest piece which does not fall, or
the longest one which falls all the way, turned round. If it is shorter than a run has to be, the
items after it are inserted one after the other.

* `firstRun` takes one run from a list, `runs` takes all.
* `perm_flatten_runs`: the runs have the items of the list.
-/

namespace Campanology.Ranking

variable {α : Type}

/-- How many of the items after `x` follow each other as `follows` tells. -/
def runLength (follows : α → α → Bool) : α → List α → Nat
  | _, [] => 0
  | x, y :: ys => if follows x y then runLength follows y ys + 1 else 0

/-- Sorted items with one more, after those which are not greater. -/
def insert (less : α → α → Bool) (sorted : List α) (x : α) : List α :=
  let place := bisect .forward (fun y => !less x y) sorted 0 sorted.length
  sorted.take place ++ x :: sorted.drop place

/-- How long the first run is, and whether it falls. -/
def firstStretch (less : α → α → Bool) (x : α) (xs : List α) : Nat × Bool :=
  let falling := runLength (fun a b => less b a) x xs
  if falling = 0 then (runLength (fun a b => !less b a) x xs + 1, false) else (falling + 1, true)

theorem firstStretch_pos (less : α → α → Bool) (x : α) (xs : List α) :
    0 < (firstStretch less x xs).1 := by
  simp only [firstStretch]
  split <;> exact Nat.succ_pos _

/-- The first run, of `least` items if there are so many, and the items after it. -/
def firstRun (less : α → α → Bool) (least : Nat) (x : α) (xs : List α) : List α × List α :=
  let (length, falls) := firstStretch less x xs
  let stretch := (x :: xs).take length
  let rest := (x :: xs).drop length
  let sorted := if falls then stretch.reverse else stretch
  ((rest.take (least - length)).foldl (insert less) sorted, rest.drop (least - length))

theorem length_firstRun_snd (less : α → α → Bool) (least : Nat) (x : α) (xs : List α) :
    (firstRun less least x xs).2.length < (x :: xs).length := by
  have := firstStretch_pos less x xs
  simp only [firstRun, List.length_drop, List.length_cons]
  omega

/-- The runs of a list. -/
def runs (less : α → α → Bool) (least : Nat) (xs : List α) : List (List α) :=
  match xs with
  | [] => []
  | x :: xs => (firstRun less least x xs).1 :: runs less least (firstRun less least x xs).2
termination_by xs.length
decreasing_by exact length_firstRun_snd less least x xs

/-! ## The runs have the items of the list -/

theorem perm_insert (less : α → α → Bool) (sorted : List α) (x : α) :
    (insert less sorted x).Perm (x :: sorted) := by
  simp only [insert]
  exact List.perm_middle.trans (by rw [List.take_append_drop])

theorem perm_foldl_insert (less : α → α → Bool) (xs sorted : List α) :
    (xs.foldl (insert less) sorted).Perm (sorted ++ xs) := by
  induction xs generalizing sorted with
  | nil => simp
  | cons x xs ih =>
    exact (ih _).trans (((perm_insert less sorted x).append_right xs).trans List.perm_middle.symm)

theorem perm_firstRun (less : α → α → Bool) (least : Nat) (x : α) (xs : List α) :
    ((firstRun less least x xs).1 ++ (firstRun less least x xs).2).Perm (x :: xs) := by
  simp only [firstRun]
  generalize firstStretch less x xs = f
  have hsorted : (if f.2 then ((x :: xs).take f.1).reverse else (x :: xs).take f.1).Perm
      ((x :: xs).take f.1) := by
    split
    · exact List.reverse_perm _
    · exact .refl _
  refine ((perm_foldl_insert less _ _).append_right _).trans ?_
  rw [List.append_assoc, List.take_append_drop]
  exact (hsorted.append_right _).trans (by rw [List.take_append_drop])

theorem perm_flatten_runs (less : α → α → Bool) (least : Nat) (xs : List α) :
    (runs less least xs).flatten.Perm xs := by
  fun_induction runs less least xs with
  | case1 => simp
  | case2 x xs ih =>
    rw [List.flatten_cons]
    exact (ih.append_left _).trans (perm_firstRun less least x xs)

end Campanology.Ranking
