import Mathlib.Data.List.Basic
import Mathlib.Data.List.Nodup
import Campanology.Truth.Scan

/-!
# Repeated rows, by their first occurrence

The search for repeated rows keeps the offset of each row that it meets for the first time. What it
finds is told here without that memory: a row at an offset is a repeat exactly if its first
occurrence is at an earlier one (`repeats_eq`). So the verdict of a report is whether a row occurs
twice (`isTrue_reportRepeats`), and the first clash does not depend on whether the search goes on
after it (`head?_reportRepeats`). All that a report tells is put together in `Report.Tells`
(`tells_reportRepeats`).
-/

namespace Campanology

/-! ## Surveys -/

section Survey

variable {α β : Type} (stop : Bool) (hit : α → Option β)

@[simp] theorem survey_nil : survey stop hit [] = ([], 0) := by
  cases stop <;> rfl

theorem survey_cons_of_none {x : α} (h : hit x = none) (xs : List α) :
    survey stop hit (x :: xs) = ((survey stop hit xs).1, (survey stop hit xs).2 + 1) := by
  cases stop <;> simp [survey, lookedAt, h]

theorem survey_cons_of_some {x : α} {y : β} (h : hit x = some y) (xs : List α) :
    survey stop hit (x :: xs) =
      if stop then ([y], 1) else (y :: (survey stop hit xs).1, (survey stop hit xs).2 + 1) := by
  cases stop <;> simp [survey, lookedAt, h]

theorem survey_false (xs : List α) : survey false hit xs = (xs.filterMap hit, xs.length) := by
  simp [survey, lookedAt]

/-- A survey that stops finds the first of what there is to be found, and looks no further. -/
theorem survey_true (xs : List α) :
    survey true hit xs = ((xs.filterMap hit).take 1,
      ((xs.findIdx? fun x => (hit x).isSome).map (· + 1)).getD xs.length) := by
  induction xs with
  | nil => rfl
  | cons x xs ih =>
    cases h : hit x with
    | none =>
      rw [survey_cons_of_none true hit h, ih, List.filterMap_cons_none h, List.findIdx?_cons, h]
      cases xs.findIdx? fun x => (hit x).isSome <;> simp
    | some y =>
      rw [survey_cons_of_some true hit h, List.filterMap_cons_some h, List.findIdx?_cons, h]
      simp

/-- A survey finds first what is first to be found, whether or not it goes on. -/
theorem head?_survey (xs : List α) : (survey stop hit xs).1.head? = xs.findSome? hit := by
  induction xs with
  | nil => simp
  | cons x xs ih =>
    cases h : hit x with
    | none => rw [survey_cons_of_none stop hit h, List.findSome?_cons, h, ih]
    | some y =>
      rw [survey_cons_of_some stop hit h, List.findSome?_cons, h]
      split <;> rfl

/-- What a survey finds is a hit among its items. -/
theorem mem_survey {xs : List α} {y : β} (h : y ∈ (survey stop hit xs).1) :
    ∃ x ∈ xs, hit x = some y := by
  obtain ⟨x, looked, found⟩ := List.mem_filterMap.1 h
  refine ⟨x, ?_, found⟩
  unfold lookedAt at looked
  split at looked
  · exact List.mem_of_mem_take looked
  · exact looked

theorem survey_congr {hit hit' : α → Option β} {xs : List α} (h : ∀ x ∈ xs, hit x = hit' x) :
    survey stop hit xs = survey stop hit' xs := by
  induction xs with
  | nil => simp
  | cons x xs ih =>
    have hx := h x (by simp)
    have rest := ih fun y hy => h y (by simp [hy])
    cases h' : hit' x with
    | none => rw [survey_cons_of_none _ _ h', survey_cons_of_none _ _ (hx.trans h'), rest]
    | some y => rw [survey_cons_of_some _ _ h', survey_cons_of_some _ _ (hx.trans h'), rest]

/-- A survey of the values of items finds the values of what a survey of the items finds. -/
theorem survey_map {α' β' : Type} {hit} {hit' : α' → Option β'} {f : α → α'} {g : β → β'}
    (h : ∀ x, hit' (f x) = (hit x).map g) (xs : List α) :
    survey stop hit' (xs.map f) = ((survey stop hit xs).1.map g, (survey stop hit xs).2) := by
  induction xs with
  | nil => simp
  | cons x xs ih =>
    rw [List.map_cons]
    cases hx : hit x with
    | none =>
      have hx' : hit' (f x) = none := by rw [h, hx, Option.map_none]
      rw [survey_cons_of_none _ _ hx, survey_cons_of_none _ _ hx', ih]
    | some y =>
      have hx' : hit' (f x) = some (g y) := by rw [h, hx, Option.map_some]
      rw [survey_cons_of_some _ _ hx, survey_cons_of_some _ _ hx', ih]
      cases stop <;> rfl

end Survey

/-! ## First occurrences -/

/-- What is kept for a key after entries which keep the first value of each key. -/
theorem getElem?_foldl_insertIfNew {α β γ : Type} [BEq α] [LawfulBEq α] [Hashable α]
    (key : β → α) (value : β → γ) (xs : List β) (m : Std.HashMap α γ) (a : α) :
    (xs.foldl (fun m x => m.insertIfNew (key x) (value x)) m)[a]? =
      m[a]?.or ((xs.find? fun x => key x == a).map value) := by
  induction xs generalizing m with
  | nil => simp
  | cons x xs ih =>
    rw [List.foldl_cons, ih, Std.HashMap.getElem?_insertIfNew, List.find?_cons]
    by_cases same : key x = a
    · subst same
      by_cases known : key x ∈ m <;> simp [known]
    · simp [beq_eq_false_iff_ne.2 same]

section Repeats

variable {α : Type} [DecidableEq α]

/-- An item occurs for the first time no later than where it stands. -/
theorem idxOf_getElem_le {xs : List α} {i : ℕ} (h : i < xs.length) : xs.idxOf xs[i] ≤ i := by
  by_contra late
  have other : (xs[i] == xs[i]) = false :=
    List.not_of_lt_findIdx (p := (· == xs[i])) (Nat.lt_of_not_le late)
  simp at other

theorem map_find?_zipIdx (x : α) (xs : List α) (offset : ℕ) (h : x ∈ xs) :
    ((xs.zipIdx offset).find? fun y => y.1 == x).map Prod.snd = some (offset + xs.idxOf x) := by
  induction xs generalizing offset with
  | nil => simp at h
  | cons y ys ih =>
    rw [List.zipIdx_cons, List.find?_cons, List.idxOf_cons]
    by_cases same : y = x
    · simp [same]
    · have later : x ∈ ys := (List.mem_cons.1 h).resolve_left (Ne.symm same)
      simp only [beq_eq_false_iff_ne.2 same, cond_false]
      rw [ih (offset + 1) later, Nat.add_right_comm, Nat.add_assoc]

/-- The repeat that an item with its offset is, if it occurs before that offset. -/
def repeatAt? (xs : List α) (x : α × ℕ) : Option (α × ℕ × ℕ) :=
  if xs.idxOf x.1 < x.2 then some (x.1, xs.idxOf x.1, x.2) else none

/-- No item occurs before exactly if all are different. -/
theorem repeatAt?_eq_none_iff_nodup (xs : List α) :
    (∀ x ∈ xs.zipIdx, repeatAt? xs x = none) ↔ xs.Nodup := by
  constructor
  · intro h
    rw [List.nodup_iff_injective_getElem]
    have first : ∀ i : Fin xs.length, i.val ≤ xs.idxOf xs[i] := fun i => by
      simpa [repeatAt?] using h (xs[i], i) (List.mem_zipIdx_iff_getElem?.2 (by simp))
    have found : ∀ i : Fin xs.length, xs.idxOf xs[i] = i := fun i =>
      Nat.le_antisymm (idxOf_getElem_le i.isLt) (first i)
    intro i j hij
    apply Fin.ext
    rw [← found i, ← found j]
    exact congrArg xs.idxOf hij
  · intro h x hx
    have e := (List.mem_zipIdx' hx).2
    rw [repeatAt?, if_neg]
    rw [e, h.idxOf_getElem]
    omega

/-- The first repeat of a list, with the offsets of both occurrences. -/
def firstRepeat? (xs : List α) : Option (α × ℕ × ℕ) := xs.zipIdx.findSome? (repeatAt? xs)

theorem firstRepeat?_eq_none_iff {xs : List α} : firstRepeat? xs = none ↔ xs.Nodup := by
  rw [firstRepeat?, List.findSome?_eq_none_iff, repeatAt?_eq_none_iff_nodup]

/-- The first repeat is the same whatever follows. -/
theorem firstRepeat?_append {xs : List α} {c : α × ℕ × ℕ} (h : firstRepeat? xs = some c)
    (ys : List α) : firstRepeat? (xs ++ ys) = some c := by
  have same : ∀ x ∈ xs.zipIdx, repeatAt? (xs ++ ys) x = repeatAt? xs x := fun x hx => by
    have mem : x.1 ∈ xs := (List.mem_zipIdx' hx).2 ▸ List.getElem_mem _
    rw [repeatAt?, repeatAt?, List.idxOf_append_of_mem mem]
  have within : xs.zipIdx.findSome? (repeatAt? (xs ++ ys)) = some c := by
    rw [← head?_survey true, survey_congr true same, head?_survey]
    exact h
  rw [firstRepeat?, List.zipIdx_append, List.findSome?_append, within, Option.some_or]

/-- The value of an item, under a function that takes no value twice, is a repeat if the item is. -/
theorem repeatAt?_map {β : Type} [DecidableEq β] {f : α → β} (hf : f.Injective) (xs : List α)
    (x : α × ℕ) :
    repeatAt? (xs.map f) (Prod.map f id x) = (repeatAt? xs x).map fun c => (f c.1, c.2) := by
  have same : ∀ y, (f y == f x.1) = (y == x.1) := fun y => by
    simp only [beq_eq_decide, hf.eq_iff]
  have index : (xs.map f).idxOf (f x.1) = xs.idxOf x.1 := by
    simp only [List.idxOf, List.findIdx_map, Function.comp_def, same]
  simp only [repeatAt?, Prod.map_fst, Prod.map_snd, id, index]
  split <;> rfl

/-- The first repeat among the values of a function that takes none of them twice. -/
theorem firstRepeat?_map {β : Type} [DecidableEq β] {f : α → β} (hf : f.Injective) (xs : List α) :
    firstRepeat? (xs.map f) = (firstRepeat? xs).map fun c => (f c.1, c.2) := by
  have values : repeatAt? (xs.map f) ∘ Prod.map f id = fun x =>
      (repeatAt? xs x).map fun c => (f c.1, c.2) := funext (repeatAt?_map hf xs)
  rw [firstRepeat?, firstRepeat?, List.zipIdx_map, List.findSome?_map, List.map_findSome?, values]
  rfl

theorem lt_of_repeatAt? {xs : List α} {x : α × ℕ} (hx : x ∈ xs.zipIdx) {c : α × ℕ × ℕ}
    (hc : repeatAt? xs x = some c) : c.2.1 < c.2.2 ∧ c.2.2 < xs.length := by
  rw [repeatAt?] at hc
  split at hc
  · rename_i lt
    cases hc
    exact ⟨lt, by simpa using List.snd_lt_of_mem_zipIdx hx⟩
  · cases hc

theorem lt_of_firstRepeat? {xs : List α} {c : α × ℕ × ℕ} (h : firstRepeat? xs = some c) :
    c.2.1 < c.2.2 ∧ c.2.2 < xs.length := by
  obtain ⟨x, hx, hc⟩ := List.exists_of_findSome?_eq_some h
  exact lt_of_repeatAt? hx hc

/-- What is found is an item where it stands, with the offset at which it stands first. -/
theorem getElem?_of_repeatAt? {xs : List α} {x : α × ℕ} (hx : x ∈ xs.zipIdx) {c : α × ℕ × ℕ}
    (hc : repeatAt? xs x = some c) : xs[c.2.2]? = some c.1 ∧ xs[c.2.1]? = some c.1 ∧
      ∀ i < c.2.1, xs[i]? ≠ some c.1 := by
  obtain ⟨lt, e⟩ := List.mem_zipIdx' hx
  rw [repeatAt?, e] at hc
  split at hc
  · cases hc
    refine ⟨List.getElem?_eq_getElem lt, List.getElem?_idxOf (List.getElem_mem lt), ?_⟩
    intro i before same
    obtain ⟨hi, same⟩ := List.getElem?_eq_some_iff.1 same
    have le := idxOf_getElem_le hi
    simp only at same before
    rw [same] at le
    omega
  · cases hc

/-- The offsets at which a list has an item that it also has before. -/
def repeatOffsets (xs : List α) : List ℕ :=
  (List.range xs.length).filter fun j => ∃ i < j, xs[i]? = xs[j]?

theorem idxOf_getElem_lt_iff {xs : List α} {j : ℕ} (h : j < xs.length) :
    xs.idxOf xs[j] < j ↔ ∃ i < j, xs[i]? = xs[j]? := by
  rw [List.getElem?_eq_getElem h]
  constructor
  · exact fun before => ⟨_, before, List.getElem?_idxOf (List.getElem_mem h)⟩
  · rintro ⟨i, before, same⟩
    obtain ⟨hi, same⟩ := List.getElem?_eq_some_iff.1 same
    rw [← same]
    exact Nat.lt_of_le_of_lt (idxOf_getElem_le hi) before

/-- The repeats that are found, by the offsets at which they occur again. -/
theorem map_filterMap_repeatAt? (xs : List α) :
    (xs.zipIdx.filterMap (repeatAt? xs)).map (fun c => c.2.2) = repeatOffsets xs := by
  have offsets : List.range xs.length = xs.zipIdx.map Prod.snd := by
    rw [List.zipIdx_map_snd, List.range_eq_range']
  rw [repeatOffsets, offsets, List.filter_map, List.map_filterMap, ← List.filterMap_eq_map,
    List.filterMap_filter]
  refine List.filterMap_congr fun x hx => ?_
  obtain ⟨lt, e⟩ := List.mem_zipIdx' hx
  simp only [repeatAt?, e, idxOf_getElem_lt_iff lt, Function.comp_apply, decide_eq_true_eq]
  split <;> rfl

theorem head?_repeatOffsets (xs : List α) :
    (repeatOffsets xs).head? = xs.zipIdx.findIdx? fun x => (repeatAt? xs x).isSome := by
  have isRepeat : ∀ i (h : i < xs.zipIdx.length),
      (repeatAt? xs xs.zipIdx[i]).isSome ↔ ∃ k < i, xs[k]? = xs[i]? := fun i h => by
    rw [List.length_zipIdx] at h
    rw [repeatAt?, Option.isSome_ite, List.getElem_zipIdx, Nat.zero_add]
    exact idxOf_getElem_lt_iff h
  rw [repeatOffsets, List.head?_filter]
  ext j
  rw [List.find?_range_eq_some, List.findIdx?_eq_some_iff_getElem]
  simp only [isRepeat, decide_eq_true_eq, List.mem_range, List.length_zipIdx, Bool.not_eq_true',
    decide_eq_false_iff_not, exists_prop]
  exact and_left_comm

variable [Hashable α]

theorem getElem?_firstOffsets {x : α} {xs : List α} (h : x ∈ xs) :
    (firstOffsets 0 xs)[x]? = some (xs.idxOf x) := by
  rw [firstOffsets, getElem?_foldl_insertIfNew Prod.fst Prod.snd, map_find?_zipIdx x xs 0 h]
  simp

/-- The search for repeats finds the items which occur before. -/
theorem repeats_eq (stop : Bool) (xs : List α) :
    repeats stop xs = survey stop (repeatAt? xs) xs.zipIdx := by
  refine survey_congr stop fun x hx => ?_
  have mem : x.1 ∈ xs := (List.mem_zipIdx' hx).2 ▸ List.getElem_mem _
  rw [getElem?_firstOffsets mem, repeatAt?]
  by_cases h : xs.idxOf x.1 < x.2 <;> simp [Option.filter, h]

/-- The offsets of a repeat are in the list, the first occurrence before the other. -/
theorem lt_of_mem_repeats {stop : Bool} {xs : List α} {c : α × ℕ × ℕ}
    (h : c ∈ (repeats stop xs).1) : c.2.1 < c.2.2 ∧ c.2.2 < xs.length := by
  rw [repeats_eq] at h
  obtain ⟨x, hx, hc⟩ := mem_survey _ _ h
  exact lt_of_repeatAt? hx hc

/-- The repeats among the values of a function that takes none of them twice. -/
theorem repeats_map {β : Type} [DecidableEq β] [Hashable β] {f : α → β} (hf : f.Injective)
    (stop : Bool) (xs : List α) : repeats stop (xs.map f) =
      ((repeats stop xs).1.map fun c => (f c.1, c.2), (repeats stop xs).2) := by
  rw [repeats_eq, repeats_eq, List.zipIdx_map, survey_map stop (repeatAt?_map hf xs)]

end Repeats

/-! ## Reports on repeats -/

theorem Report.isTrue_iff {α : Type} {r : Report α} : r.isTrue = true ↔ r.clashes.head? = none := by
  simp [Report.isTrue]

section Reports

variable {s : Stage} (stop : Bool) (locate : ℕ → Position) (rows : List (Row s))

/-- The first clash of a report, whether or not the search stops at it. -/
theorem head?_reportRepeats :
    (reportRepeats stop locate rows).clashes.head? =
      (firstRepeat? rows).map fun c => ⟨c.1, locate c.2.1, locate c.2.2⟩ := by
  rw [reportRepeats, repeats_eq, List.head?_map, head?_survey, firstRepeat?]

/-- Rows are reported to be true exactly if none of them occurs twice. -/
theorem isTrue_reportRepeats :
    (reportRepeats stop locate rows).isTrue = true ↔ rows.Nodup := by
  rw [Report.isTrue_iff, head?_reportRepeats, Option.map_eq_none_iff, firstRepeat?_eq_none_iff]

/-- A search that goes on finds every row that occurs before, together with its first occurrence. -/
theorem mem_clashes_reportRepeats {c : Clash (Row s)} :
    c ∈ (reportRepeats false locate rows).clashes ↔
      ∃ j, ∃ h : j < rows.length, rows.idxOf rows[j] < j ∧
        c = ⟨rows[j], locate (rows.idxOf rows[j]), locate j⟩ := by
  simp only [reportRepeats, repeats_eq, survey_false, List.mem_map, List.mem_filterMap]
  constructor
  · rintro ⟨found, ⟨x, hx, hit⟩, rfl⟩
    obtain ⟨lt, e⟩ := List.mem_zipIdx' hx
    rw [repeatAt?] at hit
    split at hit
    · rename_i before
      cases hit
      exact ⟨x.2, lt, e ▸ before, by rw [← e]⟩
    · cases hit
  · rintro ⟨j, h, before, rfl⟩
    refine ⟨(rows[j], rows.idxOf rows[j], j), ⟨(rows[j], j), ?_, ?_⟩, rfl⟩
    · exact List.mem_zipIdx_iff_getElem?.2 (by simp)
    · rw [repeatAt?, if_pos before]

end Reports

/-! ## What a report tells -/

section Tells

variable {s : Stage}

/-- The report tells the repeats of rows in the order of their offsets, each with the first offset
of the row, and that all rows were looked at; or else, with `stop`, only the first of these repeats,
and that the rows up to it were looked at. -/
structure Report.Tells (r : Report (Row s)) (stop : Bool) (locate : ℕ → Position)
    (rows : List (Row s)) : Prop where
  again : r.clashes.map (fun c => c.second.offset) =
    if stop then (repeatOffsets rows).take 1 else repeatOffsets rows
  first : ∀ c ∈ r.clashes, rows[c.second.offset]? = some c.row ∧
    rows[c.first.offset]? = some c.row ∧ ∀ i < c.first.offset, rows[i]? ≠ some c.row
  located : ∀ c ∈ r.clashes, c.first = locate c.first.offset ∧ c.second = locate c.second.offset
  examined : r.examined =
    if stop then ((repeatOffsets rows).head?.map (· + 1)).getD rows.length else rows.length

theorem tells_reportRepeats (stop : Bool) {locate : ℕ → Position}
    (h : ∀ j, (locate j).offset = j) (rows : List (Row s)) :
    (reportRepeats stop locate rows).Tells stop locate rows where
  again := by
    simp only [reportRepeats, repeats_eq, List.map_map, Function.comp_def, h]
    cases stop
    · rw [survey_false, map_filterMap_repeatAt?]
      rfl
    · rw [survey_true, List.map_take, map_filterMap_repeatAt?]
      rfl
  first := by
    intro c hc
    simp only [reportRepeats, repeats_eq] at hc
    obtain ⟨found, hfound, rfl⟩ := List.mem_map.1 hc
    obtain ⟨x, hx, hit⟩ := mem_survey _ _ hfound
    simp only [h]
    exact getElem?_of_repeatAt? hx hit
  located := by
    intro c hc
    obtain ⟨found, -, rfl⟩ := List.mem_map.1 hc
    simp only [h, and_self]
  examined := by
    simp only [reportRepeats, repeats_eq]
    cases stop
    · rw [survey_false, List.length_zipIdx]
      rfl
    · rw [survey_true, head?_repeatOffsets, List.length_zipIdx]
      rfl

end Tells

end Campanology
