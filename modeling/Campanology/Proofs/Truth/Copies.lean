import Campanology.Proofs.Row.Group
import Campanology.Proofs.Truth.Repeats

/-!
# Copies of a unit

The copies of a unit rung from heads stand one after another, all of the length of the unit; so the
row at an offset is told by the quotient and the remainder of the offset by that length
(`exists_getElem_copies`). A row occurs twice either within every copy, when the unit repeats it, or
in the copies of two heads, which then share it (`nodup_copies`).
-/

namespace Campanology

variable {s : Stage}

/-! ## Asking for the stage of heads -/

@[simp] theorem requireAll_map_of (heads : List (Row s)) (operation : String) :
    requireAll (heads.map Staged.of) s operation = .ok heads :=
  mapM_require_map_of heads operation

/-- Of heads of several stages, the first at another stage is refused. -/
theorem requireAll_of_find? {heads : List (Staged Row)} {g : Staged Row}
    (h : heads.find? (fun g => g.stage ≠ s) = some g) (operation : String) :
    requireAll heads s operation = .error ⟨s, g.stage, operation⟩ := by
  induction heads with
  | nil => simp at h
  | cons f fs ih =>
    rw [requireAll] at ih ⊢
    rw [List.mapM_cons]
    by_cases same : f.stage = s
    · obtain ⟨r, rfl⟩ := exists_of same
      rw [Staged.require_of, ih (by simpa [Staged.of] using h)]
      rfl
    · have here : f = g := by simpa [same] using h
      rw [← here, Staged.require_of_ne same]
      rfl

namespace Block

variable (unit : Block s)

/-! ## Rows of the copies -/

@[simp] theorem copies_nil : unit.copies [] = [] := rfl

theorem copies_cons (h : Row s) (hs : List (Row s)) :
    unit.copies (h :: hs) = unit.rows.map (h * ·) ++ unit.copies hs := by
  simp [copies]

@[simp] theorem length_copies (heads : List (Row s)) :
    (unit.copies heads).length = heads.length * unit.rows.length := by
  simp [copies, List.length_flatMap]

/-- The row at an index of the copy of one of the heads. -/
theorem getElem?_copies {heads : List (Row s)} {i a : ℕ} (hi : i < heads.length)
    (ha : a < unit.rows.length) :
    (unit.copies heads)[i * unit.rows.length + a]? = some (heads[i] * unit.rows[a]) := by
  induction heads generalizing i with
  | nil => simp at hi
  | cons h hs ih =>
    rw [copies_cons]
    cases i with
    | zero =>
      rw [Nat.zero_mul, Nat.zero_add, List.getElem?_append_left (by simpa using ha)]
      simp [ha]
    | succ i =>
      have index : (i + 1) * unit.rows.length + a =
          (unit.rows.map (h * ·)).length + (i * unit.rows.length + a) := by
        rw [List.length_map, Nat.succ_mul]
        omega
      rw [index, List.getElem?_append_right (Nat.le_add_right _ _), Nat.add_sub_cancel_left,
        ih (by simpa using hi), List.getElem_cons_succ]

/-- An offset in the copies lies in one of them. -/
theorem offset_lt {heads : List (Row s)} {j : ℕ} (hj : j < (unit.copies heads).length) :
    j / unit.rows.length < heads.length ∧ j % unit.rows.length < unit.rows.length := by
  rw [length_copies] at hj
  have pos : 0 < unit.rows.length := Nat.pos_of_ne_zero fun e => by simp [e] at hj
  exact ⟨(Nat.div_lt_iff_lt_mul pos).2 hj, Nat.mod_lt _ pos⟩

/-- The row at an offset in the copies is in the copy of the head that the offset tells. -/
theorem exists_getElem_copies {heads : List (Row s)} {j : ℕ}
    (hj : j < (unit.copies heads).length) :
    ∃ h, heads[j / unit.rows.length]? = some h ∧
      ∃ x ∈ unit.rows, (unit.copies heads)[j] = h * x := by
  obtain ⟨hcopy, hrow⟩ := unit.offset_lt hj
  have row := unit.getElem?_copies hcopy hrow
  rw [Nat.div_add_mod'] at row
  exact ⟨_, List.getElem?_eq_getElem hcopy, _, List.getElem_mem hrow,
    (List.getElem?_eq_some_iff.1 row).2⟩

/-! ## Rows that occur twice -/

/-- The copies of two heads have a row in common. -/
def Shares (g h : Row s) : Prop := ∃ x ∈ unit.rows, ∃ y ∈ unit.rows, g * x = h * y

instance (g h : Row s) : Decidable (unit.Shares g h) :=
  inferInstanceAs (Decidable (∃ x ∈ unit.rows, ∃ y ∈ unit.rows, g * x = h * y))

theorem Shares.symm {unit : Block s} {g h : Row s} : unit.Shares g h → unit.Shares h g
  | ⟨x, hx, y, hy, e⟩ => ⟨y, hy, x, hx, e.symm⟩

/-- The copies of heads are apart: none of them repeats a row, and no two have one in common. -/
def Apart (heads : List (Row s)) : Prop :=
  (heads ≠ [] → unit.rows.Nodup) ∧ heads.Pairwise fun g h => ¬ unit.Shares g h

/-- The copies repeat no row exactly if they are apart. -/
theorem nodup_copies (heads : List (Row s)) :
    (unit.copies heads).Nodup ↔ unit.Apart heads := by
  have within : (∀ h ∈ heads, (unit.rows.map (h * ·)).Nodup) ↔ (heads ≠ [] → unit.rows.Nodup) := by
    simp only [List.nodup_map_iff (mul_right_injective _)]
    exact ⟨fun h ne => h _ (List.head_mem ne), fun h g hg => h (List.ne_nil_of_mem hg)⟩
  have apart : (Function.onFun List.Disjoint fun h => unit.rows.map (h * ·)) =
      fun g h => ¬ unit.Shares g h := by
    funext g h
    simp only [Function.onFun, List.disjoint_left, Shares, List.mem_map, eq_iff_iff]
    constructor
    · rintro disjoint ⟨x, hx, y, hy, e⟩
      exact disjoint ⟨x, hx, e⟩ ⟨y, hy, rfl⟩
    · rintro apart z ⟨x, hx, rfl⟩ ⟨y, hy, e⟩
      exact apart ⟨x, hx, y, hy, e.symm⟩
  rw [copies, List.nodup_flatMap, within, apart, Apart]

/-- If the unit repeats a row, then the copies first repeat it in the copy of the first head. -/
theorem firstRepeat?_copies {c : Row s × ℕ × ℕ} (h : firstRepeat? unit.rows = some c)
    (g : Row s) (hs : List (Row s)) :
    firstRepeat? (unit.copies (g :: hs)) = some (g * c.1, c.2) := by
  rw [copies_cons]
  apply firstRepeat?_append
  rw [firstRepeat?_map (mul_right_injective g), h]
  rfl

end Block

end Campanology
