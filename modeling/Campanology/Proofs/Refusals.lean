import Mathlib.Data.List.Forall2
import Campanology.Stage

/-!
# Computations that may be refused

What is done step by step, in `Except`, is done if no step is refused (`bind_eq_ok_iff`), and a list
is read if each of its items is (`mapM_eq_ok_iff`); otherwise the refusal is that of the first item
which is refused (`mapM_eq_error_iff`, `foldlM_eq_error_iff`). Things which an operation needs of a
stage are refused if they are of another, and for nothing else (`mapM_require_eq_ok_iff`).
-/

namespace Campanology

variable {ε α β : Type}

theorem bind_eq_ok_iff {x : Except ε α} {f : α → Except ε β} {y : β} :
    (x >>= f) = .ok y ↔ ∃ a, x = .ok a ∧ f a = .ok y := by
  cases x with
  | error e => simp [bind, Except.bind]
  | ok a => simp [bind, Except.bind]

theorem bind_eq_error_iff {x : Except ε α} {f : α → Except ε β} {e : ε} :
    (x >>= f) = .error e ↔ x = .error e ∨ ∃ a, x = .ok a ∧ f a = .error e := by
  cases x with
  | error e' => simp [bind, Except.bind]
  | ok a => simp [bind, Except.bind]

theorem mapError_eq_ok_iff {ε' : Type} {f : ε → ε'} {x : Except ε α} {y : α} :
    x.mapError f = .ok y ↔ x = .ok y := by
  cases x <;> simp [Except.mapError]

/-- A list is read item by item without refusal if and only if each item is. -/
theorem mapM_eq_ok_iff {f : α → Except ε β} {xs : List α} {ys : List β} :
    xs.mapM f = .ok ys ↔ List.Forall₂ (fun x y => f x = .ok y) xs ys := by
  induction xs generalizing ys with
  | nil => simp [pure, Except.pure, eq_comm]
  | cons x xs ih =>
    rw [List.mapM_cons, bind_eq_ok_iff, List.forall₂_cons_left_iff]
    constructor
    · rintro ⟨y, hx, h⟩
      obtain ⟨rest, hxs, h⟩ := bind_eq_ok_iff.1 h
      exact ⟨y, rest, hx, ih.1 hxs, (Except.ok.inj h).symm⟩
    · rintro ⟨y, rest, hx, hxs, rfl⟩
      exact ⟨y, hx, bind_eq_ok_iff.2 ⟨rest, ih.2 hxs, rfl⟩⟩

/-- A list is refused with an item of it if and only if each item before that is read. -/
theorem mapM_eq_error_iff {f : α → Except ε β} {xs : List α} {e : ε} :
    xs.mapM f = .error e ↔ ∃ before x after, xs = before ++ x :: after ∧ f x = .error e ∧
      ∀ y ∈ before, ∃ z, f y = .ok z := by
  induction xs with
  | nil => simp [pure, Except.pure]
  | cons y xs ih =>
    rw [List.mapM_cons, bind_eq_error_iff]
    constructor
    · rintro (refused | ⟨z, read, h⟩)
      · exact ⟨[], y, xs, rfl, refused, by simp⟩
      · obtain refused | ⟨_, _, ⟨⟩⟩ := bind_eq_error_iff.1 h
        obtain ⟨before, x, after, rfl, hx, fine⟩ := ih.1 refused
        exact ⟨y :: before, x, after, rfl, hx, List.forall_mem_cons.2 ⟨⟨z, read⟩, fine⟩⟩
    · rintro ⟨_ | ⟨_, before⟩, x, after, ⟨⟩, hx, fine⟩
      · exact .inl hx
      · obtain ⟨⟨z, read⟩, fine⟩ := List.forall_mem_cons.1 fine
        exact .inr ⟨z, read, bind_eq_error_iff.2 (.inl (ih.2 ⟨before, x, after, rfl, hx, fine⟩))⟩

/-- The first item that is refused refuses the list. -/
theorem mapM_eq_error_of_first {f : α → Except ε β} {xs : List α} {e : ε} {k : ℕ} {x : α}
    (here : xs[k]? = some x) (refused : f x = .error e)
    (before : ∀ i < k, ∀ x, xs[i]? = some x → ∃ y, f x = .ok y) : xs.mapM f = .error e := by
  obtain ⟨lt, rfl⟩ := List.getElem?_eq_some_iff.1 here
  refine mapM_eq_error_iff.2 ⟨xs.take k, xs[k], xs.drop (k + 1), ?_, refused, fun y hy => ?_⟩
  · rw [← List.drop_eq_getElem_cons lt, List.take_append_drop]
  · obtain ⟨i, hi, rfl⟩ := List.mem_take_iff_getElem.1 hy
    exact before i (Nat.lt_of_lt_of_le hi (Nat.min_le_left _ _)) _ (List.getElem?_eq_getElem _)

/-- What is done with one item after another is refused with an item if and only if it is done with
each before that. -/
theorem foldlM_eq_error_iff {f : β → α → Except ε β} {xs : List α} {b : β} {e : ε} :
    xs.foldlM f b = .error e ↔ ∃ before x after c, xs = before ++ x :: after ∧
      before.foldlM f b = .ok c ∧ f c x = .error e := by
  induction xs generalizing b with
  | nil => simp [pure, Except.pure]
  | cons y xs ih =>
    rw [List.foldlM_cons, bind_eq_error_iff]
    constructor
    · rintro (refused | ⟨c, done, h⟩)
      · exact ⟨[], y, xs, b, rfl, rfl, refused⟩
      · obtain ⟨before, x, after, d, rfl, rest, hx⟩ := ih.1 h
        exact ⟨y :: before, x, after, d, rfl, bind_eq_ok_iff.2 ⟨c, done, rest⟩, hx⟩
    · rintro ⟨_ | ⟨_, before⟩, x, after, d, ⟨⟩, done, hx⟩
      · obtain rfl := Except.ok.inj done
        exact .inl hx
      · rw [List.foldlM_cons, bind_eq_ok_iff] at done
        obtain ⟨c, first, rest⟩ := done
        exact .inr ⟨c, first, ih.2 ⟨before, x, after, d, rfl, rest, hx⟩⟩

/-! ## Things of a stage -/

section Staged

variable {s : Stage}

/-- What an operation needs of a stage is refused for its stage alone. -/
theorem require_eq_ok_iff {α : Stage → Type} {x : Staged α} {y : α s} {operation : String} :
    x.require s operation = .ok y ↔ x = .of y := by
  constructor
  · intro h
    by_cases same : x.stage = s
    · obtain ⟨z, rfl⟩ := exists_of same
      rw [Staged.require_of] at h
      rw [Except.ok.inj h]
    · rw [Staged.require_of_ne same] at h
      cases h
  · rintro rfl
    exact Staged.require_of y operation

/-- What is not refused all is of the stage. -/
theorem mapM_require_eq_ok_iff {α : Stage → Type} {xs : List (Staged α)} {ys : List (α s)}
    {operation : String} :
    (xs.mapM fun x : Staged α => x.require s operation) = .ok ys ↔ xs = ys.map .of := by
  simp only [mapM_eq_ok_iff, require_eq_ok_iff]
  rw [← List.forall₂_eq_eq_eq, List.forall₂_map_right_iff]

end Staged

end Campanology
