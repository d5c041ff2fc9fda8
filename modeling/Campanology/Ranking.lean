import Campanology.Ranking.Merge
import Campanology.Ranking.Run

/-!
# Ranking

A ranking brings the greatest items first and leaves equal ones in their order. It compares by a
test `less`, which need not come from an order: what is no number is neither less nor greater than
any number. The ranking then depends on which items are compared, so this is part of its meaning.

The items are taken from the last to the first and cut into runs. The runs are merged, two
neighbours at a time. Which ones are merged before the next run is added is told by the *level* of
the border between two runs: in a list that is halved again and again, how often it has to be halved
until the middles of the two runs are apart. Borders of a deeper level go first.

* `sort` brings the least items first, `rank` the greatest.
* `perm_rank`: a ranking is a rearrangement.
-/

namespace Campanology.Ranking

variable {α : Type}

/-- How long a run has to be in a list of `n` items: a number below 65, so that the runs of a list
without longer ones are about a power of two many. It is `n` halved until it is below 64, and one
more if a half was rounded. -/
def leastRun (n rounded : Nat) : Nat :=
  if n < 64 then n + rounded else leastRun (n / 2) (max rounded (n % 2))
termination_by n

/-- The number of the first binary place in which `a` and `b`, as parts of `whole`, differ, if they
do in the first `bound` places. -/
def firstDifference (whole : Nat) : (bound a b : Nat) → Nat
  | 0, _, _ => 0
  | bound + 1, a, b =>
    if a / whole = b / whole then firstDifference whole bound (2 * a) (2 * b) + 1 else 0

/-- The level of the border between a run which begins at an offset and the next run. -/
def level (whole offset length nextLength : Nat) : Nat :=
  let twiceMiddle := 2 * offset + length
  firstDifference whole whole twiceMiddle (twiceMiddle + length + nextLength)

/-- Runs which wait to be merged. -/
structure Pile (α : Type) where
  /-- The last run, and the offset at which it begins. -/
  top : List α
  offset : Nat
  /-- The runs before it, the last one first, each with the level of the border after it. -/
  below : List (List α × Nat)
  patience : Nat

/-- Merges a run with those below it, as long as the border is deeper than `level`. -/
def settle (less : α → α → Bool) (level : Nat) (run : List α) :
    (below : List (List α × Nat)) → (patience : Nat) → List (List α × Nat) × Nat
  | [], patience => ([(run, level)], patience)
  | (before, deep) :: below, patience =>
    if level < deep then
      let (run, patience) := mergeRuns less patience before run
      settle less level run below patience
    else ((run, level) :: (before, deep) :: below, patience)

/-- Adds the next run of a list of `whole` items. -/
def Pile.add (less : α → α → Bool) (whole : Nat) (p : Pile α) (run : List α) : Pile α :=
  let border := level whole p.offset p.top.length run.length
  let (below, patience) := settle less border p.top p.below p.patience
  ⟨run, p.offset + p.top.length, below, patience⟩

/-- Merges all runs, given with the last one first. Of the last three the two shorter neighbours are
merged first. -/
def mergeAll (less : α → α → Bool) (patience : Nat) : List (List α) → List α
  | [] => []
  | [run] => run
  | [second, first] => (mergeRuns less patience first second).1
  | third :: second :: first :: rest =>
    if first.length < third.length then
      let (run, patience) := mergeRuns less patience first second
      mergeAll less patience (third :: run :: rest)
    else
      let (run, patience) := mergeRuns less patience second third
      mergeAll less patience (run :: first :: rest)
termination_by runs => runs.length

/-- The items with the least first. -/
def sort (less : α → α → Bool) (xs : List α) : List α :=
  match runs less (leastRun xs.length 0) xs with
  | [] => []
  | run :: more =>
    let pile := more.foldl (Pile.add less xs.length) ⟨run, 0, [], longStretch⟩
    mergeAll less pile.patience (pile.top :: pile.below.map Prod.fst)

/-- The items with the greatest first. -/
def rank (less : α → α → Bool) (xs : List α) : List α := (sort less xs.reverse).reverse

/-! ## A ranking is a rearrangement -/

/-- The items of runs which are given with the last one first. -/
def itemsOf (runs : List (List α)) : List α := runs.reverse.flatten

theorem itemsOf_cons (run : List α) (runs : List (List α)) :
    itemsOf (run :: runs) = itemsOf runs ++ run := by
  simp [itemsOf]

theorem perm_settle (less : α → α → Bool) (level : Nat) (run : List α)
    (below : List (List α × Nat)) (patience : Nat) :
    (itemsOf ((settle less level run below patience).1.map Prod.fst)).Perm
      (itemsOf (below.map Prod.fst) ++ run) := by
  fun_induction settle less level run below patience with
  | case1 => simp [itemsOf]
  | case2 run before deep below patience _ merged rest h ih =>
    rw [List.map_cons, itemsOf_cons, List.append_assoc]
    refine ih.trans (List.Perm.append_left _ ?_)
    have := perm_mergeRuns less patience before run
    rwa [h] at this
  | case3 => simp [itemsOf]

theorem perm_add (less : α → α → Bool) (whole : Nat) (p : Pile α) (run : List α) :
    (itemsOf ((p.add less whole run).top :: (p.add less whole run).below.map Prod.fst)).Perm
      (itemsOf (p.top :: p.below.map Prod.fst) ++ run) := by
  rw [itemsOf_cons, itemsOf_cons]
  exact (perm_settle ..).append_right run

theorem perm_foldl_add (less : α → α → Bool) (whole : Nat) (more : List (List α)) (p : Pile α) :
    (itemsOf ((more.foldl (Pile.add less whole) p).top ::
      (more.foldl (Pile.add less whole) p).below.map Prod.fst)).Perm
      (itemsOf (p.top :: p.below.map Prod.fst) ++ more.flatten) := by
  induction more generalizing p with
  | nil => simp
  | cons run more ih =>
    rw [List.foldl_cons, List.flatten_cons, ← List.append_assoc]
    exact (ih _).trans ((perm_add less whole p run).append_right _)

theorem perm_mergeAll (less : α → α → Bool) (patience : Nat) (runs : List (List α)) :
    (mergeAll less patience runs).Perm (itemsOf runs) := by
  fun_induction mergeAll less patience runs with
  | case1 => exact .refl _
  | case2 => simp [itemsOf]
  | case3 => simpa [itemsOf] using perm_mergeRuns ..
  | case4 patience third second first rest _ run patience' h ih =>
    have hm := perm_mergeRuns less patience first second
    rw [h] at hm
    refine ih.trans ?_
    simp only [itemsOf_cons, List.append_assoc]
    rw [← List.append_assoc first]
    exact (hm.append_right _).append_left _
  | case5 patience third second first rest _ run patience' h ih =>
    have hm := perm_mergeRuns less patience second third
    rw [h] at hm
    refine ih.trans ?_
    simp only [itemsOf_cons, List.append_assoc]
    exact (hm.append_left _).append_left _

theorem perm_sort (less : α → α → Bool) (xs : List α) : (sort less xs).Perm xs := by
  have hruns := perm_flatten_runs less (leastRun xs.length 0) xs
  unfold sort
  split
  · rename_i h
    rw [h] at hruns
    exact hruns
  · rename_i run more h
    rw [h] at hruns
    refine (perm_mergeAll ..).trans ((perm_foldl_add ..).trans ?_)
    simpa [itemsOf] using hruns

theorem perm_rank (less : α → α → Bool) (xs : List α) : (rank less xs).Perm xs :=
  (List.reverse_perm _).trans ((perm_sort less _).trans (List.reverse_perm xs))

end Campanology.Ranking
