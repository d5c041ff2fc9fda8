import Mathlib.Data.List.Pairwise
import Mathlib.Data.List.ProdSigma
import Campanology.Proofs.Truth.Copies
import Campanology.Truth.Quotients

/-!
# What the table of quotients knows

The witness of a pair of heads is the first pair of offsets in the unit, in the order of words, at
which the copies of the two heads have the same row (`witness?_eq`). So the table tells exactly
which copies share a row (`clash_iff`), the pairs that are listed are those (`mem_clashingPairs`),
in whatever order workers look for them (`clashingPairsIn_eq`), and a report on heads is true
exactly if the copies are apart (`isTrue_prove`).
-/

namespace Campanology.QuotientTable

variable {s : Stage}

/-! ## Pairs of items -/

/-- The pairs of a list are its sublists of two items. -/
theorem mem_pairs {α : Type} {a b : α} {xs : List α} : (a, b) ∈ pairs xs ↔ [a, b].Sublist xs := by
  induction xs with
  | nil => simp [pairs]
  | cons x xs ih =>
    rw [pairs, List.mem_append, ih, List.sublist_cons_iff, Or.comm]
    simp [eq_comm, and_comm]

theorem forall_mem_pairs_iff {α : Type} {R : α → α → Prop} {xs : List α} :
    (∀ p ∈ pairs xs, R p.1 p.2) ↔ xs.Pairwise R := by
  rw [List.pairwise_iff_forall_sublist]
  exact ⟨fun h a b hab => h (a, b) (mem_pairs.2 hab), fun h p hp => h (mem_pairs.1 hp)⟩

theorem pairwise_snd_zipIdx {α : Type} (xs : List α) :
    xs.zipIdx.Pairwise fun a b => a.2 < b.2 := by
  rw [← List.pairwise_map, List.zipIdx_map_snd]
  exact List.pairwise_lt_range'

/-- The pairs of items with their indices are those of ascending indices. -/
theorem mem_pairs_zipIdx {α : Type} {x y : α} {i j : ℕ} {xs : List α} :
    ((x, i), (y, j)) ∈ pairs xs.zipIdx ↔ i < j ∧ xs[i]? = some x ∧ xs[j]? = some y := by
  rw [mem_pairs]
  constructor
  · intro h
    refine ⟨List.pairwise_iff_forall_sublist.1 (pairwise_snd_zipIdx xs) h, ?_, ?_⟩
    · exact List.mem_zipIdx_iff_getElem?.1 (h.subset (List.mem_cons_self ..))
    · exact List.mem_zipIdx_iff_getElem?.1
        (h.subset (List.mem_cons_of_mem _ (List.mem_singleton_self _)))
  · rintro ⟨hij, hx, hy⟩
    have all : xs.zipIdx.Pairwise fun a b => [a, b].Sublist xs.zipIdx :=
      List.pairwise_iff_forall_sublist.2 id
    obtain ⟨hi, rfl⟩ := List.getElem?_eq_some_iff.1 hx
    obtain ⟨hj, rfl⟩ := List.getElem?_eq_some_iff.1 hy
    have pair := List.pairwise_iff_getElem.1 all i j (by simpa using hi) (by simpa using hj) hij
    rw [List.getElem_zipIdx, List.getElem_zipIdx, Nat.zero_add, Nat.zero_add] at pair
    exact pair

/-! ## Looking up -/

variable (unit : Block s)

/-- The first pair of offsets in the unit at which the quotient of the rows is the given one. -/
theorem getElem?_witnesses (q : Row s) :
    (ofBlock unit).witnesses[q]? =
      ((unit.rows.zipIdx ×ˢ unit.rows.zipIdx).find? fun z => z.2.1 * z.1.1⁻¹ == q).map
        fun z => (z.1.2, z.2.2) := by
  have flat : (ofBlock unit).witnesses =
      (unit.rows.zipIdx ×ˢ unit.rows.zipIdx).foldl
        (fun t z => t.insertIfNew (z.2.1 * z.1.1⁻¹) (z.1.2, z.2.2)) ∅ := by
    simp only [SProd.sprod, List.product, List.foldl_flatMap, List.foldl_map]
    rfl
  rw [flat, getElem?_foldl_insertIfNew]
  simp

theorem quotient_eq_iff {g h x y : Row s} : y * x⁻¹ = h⁻¹ * g ↔ g * x = h * y := by
  rw [mul_inv_eq_iff_eq_mul, mul_assoc, eq_inv_mul_iff_mul_eq, eq_comm]

/-- The witness of two heads is the first pair of offsets at which their copies have one row. -/
theorem witness?_eq (g h : Row s) :
    (ofBlock unit).witness? g h =
      ((unit.rows.zipIdx ×ˢ unit.rows.zipIdx).find? fun z => g * z.1.1 = h * z.2.1).map
        fun z => (z.1.2, z.2.2) := by
  rw [witness?, getElem?_witnesses]
  simp only [beq_eq_decide, quotient_eq_iff]

theorem of_witness? {g h : Row s} {a b : ℕ} (w : (ofBlock unit).witness? g h = some (a, b)) :
    ∃ (ha : a < unit.rows.length) (hb : b < unit.rows.length),
      g * unit.rows[a] = h * unit.rows[b] := by
  rw [witness?_eq] at w
  obtain ⟨⟨⟨x, a'⟩, y, b'⟩, found, e⟩ := Option.map_eq_some_iff.1 w
  cases e
  have both := List.pair_mem_product.1 (List.mem_of_find?_eq_some found)
  obtain ⟨ha, hx⟩ := List.mem_zipIdx' both.1
  obtain ⟨hb, hy⟩ := List.mem_zipIdx' both.2
  exact ⟨ha, hb, by simpa [← hx, ← hy] using List.find?_some found⟩

/-- Two heads clash in the table exactly if their copies share a row. -/
theorem clash_iff {g h : Row s} : (ofBlock unit).clash g h = true ↔ unit.Shares g h := by
  constructor
  · intro clash
    obtain ⟨⟨a, b⟩, w⟩ := Option.isSome_iff_exists.1 clash
    obtain ⟨ha, hb, e⟩ := of_witness? unit w
    exact ⟨_, List.getElem_mem ha, _, List.getElem_mem hb, e⟩
  · rintro ⟨x, hx, y, hy, e⟩
    obtain ⟨a, ha⟩ := List.getElem?_of_mem hx
    obtain ⟨b, hb⟩ := List.getElem?_of_mem hy
    rw [clash, witness?_eq, Option.isSome_map, List.find?_isSome]
    refine ⟨((x, a), y, b), List.pair_mem_product.2 ⟨?_, ?_⟩, by simpa using e⟩
    · exact List.mem_zipIdx_iff_getElem?.2 ha
    · exact List.mem_zipIdx_iff_getElem?.2 hb

/-- The pairs that are listed are those of heads whose copies share a row. -/
theorem mem_clashingPairs {heads : List (Row s)} {i j : ℕ} :
    (i, j) ∈ (ofBlock unit).clashingPairs heads ↔
      i < j ∧ ∃ g h, heads[i]? = some g ∧ heads[j]? = some h ∧ unit.Shares g h := by
  simp only [clashingPairs, List.mem_map, List.mem_filter, clash_iff]
  constructor
  · rintro ⟨⟨⟨g, i⟩, h, j⟩, ⟨mem, shares⟩, e⟩
    cases e
    obtain ⟨hij, hg, hh⟩ := mem_pairs_zipIdx.1 mem
    exact ⟨hij, g, h, hg, hh, shares⟩
  · rintro ⟨hij, g, h, hg, hh, shares⟩
    exact ⟨((g, i), h, j), ⟨mem_pairs_zipIdx.2 ⟨hij, hg, hh⟩, shares⟩, rfl⟩

/-! ## Pairs found by workers -/

/-- What is kept by index does not depend on the order in which it is found. -/
theorem getElem?_foldl_set {α : Type} (f : ℕ → α) (order : List ℕ) (found : List (Option α))
    (i : ℕ) :
    (order.foldl (fun found i => found.set i (some (f i))) found)[i]? =
      if i ∈ order ∧ i < found.length then some (some (f i)) else found[i]? := by
  induction order generalizing found with
  | nil => simp
  | cons k order ih =>
    rw [List.foldl_cons, ih, List.length_set, List.getElem?_set]
    by_cases here : k = i
    · subst here
      by_cases inside : k < found.length <;> simp [inside]
    · simp [here, Ne.symm here]

theorem partnersIn_eq (t : QuotientTable s) (order : List ℕ) (heads : List (Row s)) :
    t.partnersIn order heads = (List.range heads.length).map (t.partners heads) := by
  apply List.ext_getElem?
  intro i
  simp only [partnersIn, List.getElem?_map, getElem?_foldl_set, List.mem_append, List.mem_range,
    List.length_replicate]
  by_cases inside : i < heads.length
  · simp [inside]
  · simp [inside]

/-- The pairs of a list, by the index of their first item. -/
theorem pairs_eq_flatMap {α : Type} (xs : List α) :
    pairs xs = (List.range xs.length).flatMap fun i =>
      match xs.drop i with
      | [] => []
      | x :: later => later.map (x, ·) := by
  induction xs with
  | nil => rfl
  | cons x xs ih =>
    rw [pairs, ih, List.length_cons, List.range_succ_eq_map, List.flatMap_cons, List.flatMap_map]
    rfl

theorem clashingPairs_eq_flatMap (t : QuotientTable s) (heads : List (Row s)) :
    t.clashingPairs heads =
      (List.range heads.length).flatMap fun i => (t.partners heads i).map (i, ·) := by
  rw [clashingPairs, pairs_eq_flatMap, List.filter_flatMap, List.map_flatMap, List.length_zipIdx]
  refine List.flatMap_congr fun i hi => ?_
  cases h : heads.zipIdx.drop i with
  | nil => simp [partners, h]
  | cons g later =>
    have index : g.2 = i := by
      have first : heads.zipIdx[i]? = some g := by rw [← List.head?_drop, h]; rfl
      rw [List.getElem?_zipIdx] at first
      obtain ⟨x, -, rfl⟩ := Option.map_eq_some_iff.1 first
      exact Nat.zero_add i
    simp [partners, h, index, List.filter_map, Function.comp_def]

/-- Workers find the pairs that are found without them, in whatever order they take the heads. -/
theorem clashingPairsIn_eq (t : QuotientTable s) (maxWorkers : Option ℤ) (order : List ℕ)
    (heads : List (Row s)) : t.clashingPairsIn maxWorkers order heads = t.clashingPairs heads := by
  have found : (if maxWorkers.any (1 < ·) ∧ 2 ≤ heads.length then t.partnersIn order heads
      else (List.range heads.length).map (t.partners heads)) =
        (List.range heads.length).map (t.partners heads) := by
    rw [partnersIn_eq, ite_self]
  rw [clashingPairsIn, found, clashingPairs_eq_flatMap, ← List.map_prod_left_eq_zip,
    List.flatMap_map]

theorem clashingPairsAnyIn_eq (t : QuotientTable s) (maxWorkers : Option ℤ) (order : List ℕ)
    (heads : List (Staged Row)) :
    t.clashingPairsAnyIn maxWorkers order heads = t.clashingPairsAny heads := by
  simp only [clashingPairsAnyIn, clashingPairsAny, clashingPairsIn_eq]

/-! ## Reports on heads -/

/-- The clash of a pair of heads stands at its witness. -/
theorem clash?_eq_some_iff {t : QuotientTable s} {p : (Row s × ℕ) × Row s × ℕ} {c : Clash (Row s)} :
    t.clash? p = some c ↔ ∃ a b x, t.witness? p.1.1 p.2.1 = some (a, b) ∧
      t.unit.rows[a]? = some x ∧
      ⟨p.1.1 * x, ⟨p.1.2, a, p.1.2 * t.unit.rows.length + a⟩,
        ⟨p.2.2, b, p.2.2 * t.unit.rows.length + b⟩⟩ = c := by
  constructor
  · intro h
    obtain ⟨⟨a, b⟩, w, h⟩ := Option.bind_eq_some_iff.1 h
    obtain ⟨x, hx, e⟩ := Option.bind_eq_some_iff.1 h
    exact ⟨a, b, x, w, hx, Option.some.inj e⟩
  · rintro ⟨a, b, x, w, hx, e⟩
    exact Option.bind_eq_some_iff.2 ⟨(a, b), w, Option.bind_eq_some_iff.2 ⟨x, hx, congrArg some e⟩⟩

/-- The clash of two heads is between their copies. -/
theorem of_clash? {p : (Row s × ℕ) × Row s × ℕ} {c : Clash (Row s)}
    (h : (ofBlock unit).clash? p = some c) :
    c.first.lead = p.1.2 ∧ c.second.lead = p.2.2 ∧ unit.Shares p.1.1 p.2.1 := by
  obtain ⟨a, b, x, w, -, rfl⟩ := clash?_eq_some_iff.1 h
  exact ⟨rfl, rfl, (clash_iff unit).1 (Option.isSome_iff_exists.2 ⟨_, w⟩)⟩

theorem exists_clash? {p : (Row s × ℕ) × Row s × ℕ} (h : unit.Shares p.1.1 p.2.1) :
    ∃ c, (ofBlock unit).clash? p = some c := by
  obtain ⟨⟨a, b⟩, w⟩ := Option.isSome_iff_exists.1 ((clash_iff unit).2 h)
  obtain ⟨ha, -, -⟩ := of_witness? unit w
  exact ⟨_, clash?_eq_some_iff.2 ⟨a, b, _, w, List.getElem?_eq_getElem ha, rfl⟩⟩

theorem isSome_clash? (p : (Row s × ℕ) × Row s × ℕ) :
    ((ofBlock unit).clash? p).isSome = (ofBlock unit).clash p.1.1 p.2.1 := by
  rw [Bool.eq_iff_iff, clash_iff, Option.isSome_iff_exists]
  exact ⟨fun ⟨_, hc⟩ => (of_clash? unit hc).2.2, exists_clash? unit⟩

theorem clash?_eq_none_iff {p : (Row s × ℕ) × Row s × ℕ} :
    (ofBlock unit).clash? p = none ↔ ¬ unit.Shares p.1.1 p.2.1 := by
  rw [← Option.not_isSome_iff_eq_none, isSome_clash?, clash_iff]

@[simp] theorem innerClash?_nil (t : QuotientTable s) : t.innerClash? [] = none := by
  cases h : t.inner <;> simp [innerClash?, h]

/-- The clash within the copy of the first head is where the unit first repeats a row. -/
theorem innerClash?_cons (g : Row s) (hs : List (Row s)) :
    (ofBlock unit).innerClash? (g :: hs) =
      (firstRepeat? unit.rows).map fun c =>
        ⟨g * c.1, ⟨0, c.2.1, c.2.1⟩, ⟨0, c.2.2, c.2.2⟩⟩ := by
  have inner : (ofBlock unit).inner = _ := head?_reportRepeats true unit.locate unit.rows
  rw [innerClash?, inner]
  cases firstRepeat? unit.rows <;> rfl

theorem innerClash?_eq_none_iff {heads : List (Row s)} :
    (ofBlock unit).innerClash? heads = none ↔ (heads ≠ [] → unit.rows.Nodup) := by
  cases heads with
  | nil => simp
  | cons g hs => simp [innerClash?_cons, firstRepeat?_eq_none_iff]

theorem clashes_prove_false (t : QuotientTable s) (heads : List (Row s)) :
    (t.prove heads false).clashes =
      (t.innerClash? heads).toList ++ (pairs heads.zipIdx).filterMap t.clash? := by
  simp [prove, survey_false]

/-- The first clash is the unit's own, and else that of the first pair of heads which have one. -/
theorem head?_prove (t : QuotientTable s) (heads : List (Row s)) (stop : Bool) :
    (t.prove heads stop).clashes.head? =
      (t.innerClash? heads).or ((pairs heads.zipIdx).findSome? t.clash?) := by
  cases h : t.innerClash? heads <;> cases stop <;> simp [prove, h, head?_survey]

/-- Heads are reported to be true exactly if their copies are apart. -/
theorem isTrue_prove (heads : List (Row s)) (stop : Bool) :
    ((ofBlock unit).prove heads stop).isTrue = true ↔ unit.Apart heads := by
  have apart : (∀ p ∈ pairs heads.zipIdx, ¬ unit.Shares p.1.1 p.2.1) ↔
      heads.Pairwise fun g h => ¬ unit.Shares g h := by
    have firsts := List.pairwise_map (f := Prod.fst) (R := fun g h => ¬ unit.Shares g h)
      (l := heads.zipIdx)
    rw [List.zipIdx_map_fst] at firsts
    rw [forall_mem_pairs_iff (R := fun x y : Row s × ℕ => ¬ unit.Shares x.1 y.1), firsts]
  rw [Report.isTrue_iff, head?_prove, Option.or_eq_none_iff, innerClash?_eq_none_iff,
    List.findSome?_eq_none_iff]
  simp only [clash?_eq_none_iff, apart, Block.Apart]

end Campanology.QuotientTable
