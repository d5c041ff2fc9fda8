import Campanology.Ranking.Search

/-!
# Merging runs

Two runs are merged from one end to the other. One of them is *anchored*: its last item comes last
of all. The other is *free*, and its first item comes first of all. Merging forward anchors the
earlier run; merging backward, where all is turned round, anchors the later one.

Items are taken one by one until the same side has won many times in a row, as many as the
*patience* says. Then whole stretches of items are found by galloping, until they become short. The
patience sinks with every round of galloping after the first, and rises at the end of it. It goes on
from one merging to the next.

* `Merging.put` takes items from a side, `Merging.round` is a round of galloping.
* `Merging.finish` merges to the end, `mergeRuns` merges two runs of a list.
* `perm_mergeRuns`: nothing is lost.
-/

namespace Campanology.Ranking

variable {α : Type}

/-- One of two runs which are merged. -/
inductive Side
  | free
  | anchored
  deriving DecidableEq

def Side.other : Side → Side
  | free => anchored
  | anchored => free

/-- Whether an item of the free run comes before one of the anchored run. Equal items keep their
order. -/
def Direction.leads (d : Direction) (less : α → α → Bool) (x y : α) : Bool :=
  match d with
  | forward => less x y
  | backward => less y x

/-- The side whose stretch is looked for first in a round of galloping. -/
def Direction.firstSide : Direction → Side
  | forward => .anchored
  | backward => .free

/-- Two runs on the way to be merged. -/
structure Merging (α : Type) where
  /-- What is merged already, the last item first. -/
  done : List α
  free : List α
  anchored : List α

namespace Merging

/-- Whether the rest is known: nothing free is left, or only one item which is anchored. -/
def isOver (m : Merging α) : Bool := m.free.isEmpty || m.anchored.tail.isEmpty

/-- All items, in an order which is right if the merging is over. -/
def items (m : Merging α) : List α := m.done.reverse ++ (m.free ++ m.anchored)

/-- How many items are not merged yet. -/
def remaining (m : Merging α) : Nat := m.free.length + m.anchored.length

/-- Takes items from a side, unless the merging is over. -/
def put (side : Side) (count : Nat) (m : Merging α) : Merging α :=
  if m.isOver then m
  else
    match side with
    | .free => ⟨(m.free.take count).reverse ++ m.done, m.free.drop count, m.anchored⟩
    | .anchored =>
      ⟨(m.anchored.take count).reverse ++ m.done, m.free, m.anchored.drop count⟩

/-- The side whose first item comes next. -/
def next (d : Direction) (less : α → α → Bool) (m : Merging α) : Side :=
  match m.free, m.anchored with
  | x :: _, y :: _ => if d.leads less x y then .free else .anchored
  | _, _ => .free

/-- How many items of a side come before the first item of the other. -/
def stretch (d : Direction) (less : α → α → Bool) (m : Merging α) (side : Side) : Nat :=
  match side, m.free, m.anchored with
  | .free, xs, y :: _ => gallop d (fun x => d.leads less x y) xs
  | .anchored, x :: _, ys => gallop d (fun y => !d.leads less x y) ys
  | _, _, _ => 0

/-- A round of galloping: a stretch of each side, and after it the item which it comes before. Also
the length of the longer stretch. -/
def round (d : Direction) (less : α → α → Bool) (m : Merging α) : Merging α × Nat :=
  let side := d.firstSide
  let one := m.stretch d less side
  let half := (m.put side one).put side.other 1
  let two := half.stretch d less side.other
  ((half.put side.other two).put side 1, max one two)

/-! ### Progress -/

theorem put_of_isOver {m : Merging α} (h : m.isOver) (side : Side) (n : Nat) :
    m.put side n = m := by
  simp [put, h]

theorem remaining_put_le (m : Merging α) (side : Side) (n : Nat) :
    (m.put side n).remaining ≤ m.remaining := by
  simp only [put, remaining]
  split
  · exact Nat.le_refl _
  · cases side <;> simp only [List.length_drop] <;> omega

theorem remaining_put_one_lt {m : Merging α} (h : ¬m.isOver) (side : Side) :
    (m.put side 1).remaining < m.remaining := by
  have hfree : 0 < m.free.length := by
    cases hf : m.free <;> simp_all [isOver]
  have hanchored : 0 < m.anchored.length := by
    cases ha : m.anchored <;> simp_all [isOver]
  simp only [put, h, remaining]
  cases side <;> simp <;> omega

theorem not_isOver_of_put {m : Merging α} {side : Side} {n : Nat} (h : ¬(m.put side n).isOver) :
    ¬m.isOver := fun hm => h (by rwa [put_of_isOver hm])

theorem remaining_round_lt {d : Direction} {less : α → α → Bool} {m : Merging α}
    (h : ¬(m.round d less).1.isOver) : (m.round d less).1.remaining < m.remaining := by
  simp only [round] at h ⊢
  have h2 := not_isOver_of_put (not_isOver_of_put h)
  have h1 := not_isOver_of_put h2
  exact Nat.lt_of_le_of_lt (Nat.le_trans (remaining_put_le ..) (remaining_put_le ..))
    (Nat.lt_of_lt_of_le (remaining_put_one_lt h1 _) (remaining_put_le ..))

end Merging

/-- How a merging goes on: item by item, where a side has won some times in a row, or by
galloping. -/
inductive Pace
  | single (side : Side) (wins : Nat)
  | galloping

/-- A stretch of this length makes another round of galloping worth while; also the patience at the
beginning. -/
def longStretch : Nat := 7

namespace Merging

/-- Merges to the end: the merged run, and the patience that is left. -/
def finish (d : Direction) (less : α → α → Bool) (pace : Pace) (patience : Nat) (m : Merging α) :
    List α × Nat :=
  if h : m.isOver then (m.items, patience)
  else
    match pace with
    | .single side wins =>
      let winner := m.next d less
      let wins := if winner = side then wins + 1 else 1
      have := remaining_put_one_lt h winner
      finish d less (if patience ≤ wins then .galloping else .single winner wins) patience
        (m.put winner 1)
    | .galloping =>
      let after := (m.round d less).1
      if h' : after.isOver then (after.items, patience)
      else
        have := remaining_round_lt h'
        if longStretch ≤ (m.round d less).2 then
          finish d less .galloping (max 1 (patience - 1)) after
        else finish d less (.single .free 0) (patience + 1) after
termination_by m.remaining

/-- Merges two runs; the first free item comes first. -/
def whole (d : Direction) (less : α → α → Bool) (patience : Nat) (free anchored : List α) :
    List α × Nat :=
  finish d less (.single .free 0) patience (put .free 1 ⟨[], free, anchored⟩)

end Merging

/-- Merges two neighbouring runs so that the shorter one is anchored, the first one if both are of
one length. -/
def mergeShorter (less : α → α → Bool) (patience : Nat) (xs ys : List α) : List α × Nat :=
  if xs.length ≤ ys.length then Merging.whole .forward less patience ys xs
  else
    let (turned, patience) := Merging.whole .backward less patience xs.reverse ys.reverse
    (turned.reverse, patience)

/-- Two neighbouring runs of a list as one, and the patience that is left. What stands right already
is left alone: the items of the first run which do not come after the second, and those of the
second which do not come before the end of the first. -/
def mergeRuns (less : α → α → Bool) (patience : Nat) (xs ys : List α) : List α × Nat :=
  match ys.head? with
  | none => (xs, patience)
  | some first =>
    let settled := gallop .forward (fun x => !less first x) xs
    match (xs.drop settled).getLast? with
    | none => (xs ++ ys, patience)
    | some last =>
      let count := ys.length - gallop .backward (fun y => !less y last) ys.reverse
      if count = 0 then (xs ++ ys, patience)
      else
        let (merged, patience) := mergeShorter less patience (xs.drop settled) (ys.take count)
        (xs.take settled ++ (merged ++ ys.drop count), patience)

/-! ## Nothing is lost -/

namespace Merging

theorem perm_items_put (m : Merging α) (side : Side) (n : Nat) :
    (m.put side n).items.Perm m.items := by
  simp only [put]
  split
  · exact .refl _
  · cases side with
    | free =>
      simp only [items, List.reverse_append, List.reverse_reverse, List.append_assoc]
      refine List.Perm.append_left _ ?_
      rw [← List.append_assoc, List.take_append_drop]
    | anchored =>
      simp only [items, List.reverse_append, List.reverse_reverse, List.append_assoc]
      refine List.Perm.append_left _ ?_
      refine (List.perm_append_comm_assoc _ _ _).trans ?_
      rw [List.take_append_drop]

theorem perm_items_round (d : Direction) (less : α → α → Bool) (m : Merging α) :
    (m.round d less).1.items.Perm m.items := by
  simp only [round]
  exact (perm_items_put ..).trans ((perm_items_put ..).trans
    ((perm_items_put ..).trans (perm_items_put ..)))

theorem perm_finish (d : Direction) (less : α → α → Bool) (pace : Pace) (patience : Nat)
    (m : Merging α) : (m.finish d less pace patience).1.Perm m.items := by
  fun_induction finish d less pace patience m with
  | case1 => exact .refl _
  | case2 =>
    rename_i ih
    exact ih.trans (perm_items_put ..)
  | case3 => exact perm_items_round ..
  | case4 =>
    rename_i ih
    exact ih.trans (perm_items_round ..)
  | case5 =>
    rename_i ih
    exact ih.trans (perm_items_round ..)

theorem perm_whole (d : Direction) (less : α → α → Bool) (patience : Nat) (free anchored : List α) :
    (whole d less patience free anchored).1.Perm (free ++ anchored) :=
  (perm_finish ..).trans ((perm_items_put ..).trans (by simp [items]))

end Merging

theorem perm_mergeShorter (less : α → α → Bool) (patience : Nat) (xs ys : List α) :
    (mergeShorter less patience xs ys).1.Perm (xs ++ ys) := by
  unfold mergeShorter
  split
  · exact (Merging.perm_whole ..).trans List.perm_append_comm
  · exact (List.reverse_perm _).trans ((Merging.perm_whole ..).trans
      ((List.reverse_perm _).append (List.reverse_perm _)))

theorem perm_mergeRuns (less : α → α → Bool) (patience : Nat) (xs ys : List α) :
    (mergeRuns less patience xs ys).1.Perm (xs ++ ys) := by
  unfold mergeRuns
  split
  · rename_i h
    simp [List.head?_eq_none_iff.1 h]
  · dsimp only
    split
    · exact .refl _
    · split
      · exact .refl _
      · generalize gallop .forward _ xs = a
        generalize ys.length - _ = b
        have h := ((perm_mergeShorter less patience (xs.drop a) (ys.take b)).append_right
          (ys.drop b)).append_left (xs.take a)
        rwa [List.append_assoc, List.take_append_drop, ← List.append_assoc (xs.take a) (xs.drop a),
          List.take_append_drop] at h

end Campanology.Ranking
