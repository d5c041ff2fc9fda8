import Mathlib.Data.Finset.Prod
import Mathlib.Data.Nat.Choose.Basic
import Mathlib.Data.Prod.Lex
import Campanology.Proofs.Truth.Agreement
import Campanology.Proofs.Truth.Passes

/-!
# What a lookup tells

A report by lookup is told here in full. The pairs of heads that are looked up ascend as words do
(`pairwise_pairs`); a search that stops at one of them has looked at as many as do not come after it
(`pairRank_getElem`). The witness of a pair was entered for the first two rows that have the
quotient; since the pairs of rows ascend in their offsets, these are the least offsets at which the
two copies have one row, whichever heads they are rung from (`le_of_witness?`). So each pair that is
listed has one clash, at these offsets (`forall₂_clashingPairs`). Before all these stands the unit's
own, where the unit first repeats a row (`clashesWithin_of_innerClash?`).

All is put together in `QuotientTable.prove_tells_every_pair`.
-/

namespace Campanology

variable {s : Stage}

/-! ## Clashes of copies -/

/-- A clash of the copies of two heads, told by their indices: it is located at the least pair of
offsets in the unit, in the order of words, at which both copies have one row. -/
structure Block.ClashesAt (unit : Block s) (heads : List (Row s)) (p : ℕ × ℕ) (c : Clash (Row s)) :
    Prop where
  leads : (c.first.lead, c.second.lead) = p
  offsets : c.first.offset = c.first.lead * unit.rows.length + c.first.index ∧
    c.second.offset = c.second.lead * unit.rows.length + c.second.index
  row : ∃ g h x y, heads[p.1]? = some g ∧ heads[p.2]? = some h ∧
    unit.rows[c.first.index]? = some x ∧ unit.rows[c.second.index]? = some y ∧
    c.row = g * x ∧ c.row = h * y
  least : ∀ g h x y a b, heads[p.1]? = some g → heads[p.2]? = some h → unit.rows[a]? = some x →
    unit.rows[b]? = some y → g * x = h * y → toLex (c.first.index, c.second.index) ≤ toLex (a, b)

/-- A clash within the copy of the first head: it is where the unit first repeats a row, against the
first occurrence of that row. -/
structure Block.ClashesWithin (unit : Block s) (heads : List (Row s)) (c : Clash (Row s)) :
    Prop where
  located : c.first = ⟨0, c.first.offset, c.first.offset⟩ ∧
    c.second = ⟨0, c.second.offset, c.second.offset⟩
  before : c.first.offset < c.second.offset
  row : ∃ g x, heads[0]? = some g ∧ unit.rows[c.first.offset]? = some x ∧
    unit.rows[c.second.offset]? = some x ∧ c.row = g * x
  least : ∀ i j, i < j → j < unit.rows.length → unit.rows[i]? = unit.rows[j]? →
    toLex (c.second.offset, c.first.offset) ≤ toLex (j, i)

namespace QuotientTable

/-! ## Pairs in order -/

theorem pairs_map {α β : Type} (f : α → β) (xs : List α) :
    pairs (xs.map f) = (pairs xs).map (Prod.map f f) := by
  induction xs with
  | nil => rfl
  | cons x xs ih => simp [pairs, ih]

theorem length_pairs {α : Type} (xs : List α) :
    (pairs xs).length = xs.length * (xs.length - 1) / 2 := by
  rw [← Nat.choose_two_right]
  induction xs with
  | nil => rfl
  | cons x xs ih =>
    rw [pairs, List.length_append, List.length_map, ih, List.length_cons, Nat.choose_succ_succ',
      Nat.choose_one_right]

/-- The pairs of ascending numbers ascend as words do. -/
theorem pairwise_pairs {xs : List ℕ} (h : xs.Pairwise (· < ·)) :
    (pairs xs).Pairwise fun p q => toLex p < toLex q := by
  induction xs with
  | nil => exact List.Pairwise.nil
  | cons x xs ih =>
    obtain ⟨least, rest⟩ := List.pairwise_cons.1 h
    rw [pairs, List.pairwise_append, List.pairwise_map]
    refine ⟨rest.imp fun lt => ?_, ih rest, ?_⟩
    · exact Prod.Lex.toLex_lt_toLex.2 (.inr ⟨rfl, lt⟩)
    · rintro p hp ⟨a, b⟩ hq
      obtain ⟨y, -, rfl⟩ := List.mem_map.1 hp
      exact Prod.Lex.toLex_lt_toLex.2 (.inl (least a ((mem_pairs.1 hq).subset (by simp))))

/-- The indices of pairs of items. -/
theorem map_pairs_zipIdx {α : Type} (xs : List α) :
    (pairs xs.zipIdx).map (Prod.map Prod.snd Prod.snd) = pairs (List.range xs.length) := by
  rw [← pairs_map, List.zipIdx_map_snd, List.range_eq_range']

theorem mem_pairs_range {n i j : ℕ} : (i, j) ∈ pairs (List.range n) ↔ i < j ∧ j < n := by
  have indices := map_pairs_zipIdx (List.range n)
  rw [List.length_range] at indices
  rw [← indices, List.mem_map]
  constructor
  · rintro ⟨⟨⟨x, i⟩, y, j⟩, mem, e⟩
    cases e
    obtain ⟨lt, -, hy⟩ := mem_pairs_zipIdx.1 mem
    exact ⟨lt, by simpa using (List.getElem?_eq_some_iff.1 hy).1⟩
  · rintro ⟨lt, within⟩
    refine ⟨((i, i), j, j), mem_pairs_zipIdx.2 ⟨lt, ?_, ?_⟩, rfl⟩
    · exact List.getElem?_range (lt.trans within)
    · exact List.getElem?_range within

/-- How many pairs of numbers below `n`, the first of them less than the second, do not come after
the pair `p` in the order of words. -/
def pairRank (n : ℕ) (p : ℕ × ℕ) : ℕ :=
  ((Finset.range n ×ˢ Finset.range n).filter fun q => q.1 < q.2 ∧ toLex q ≤ toLex p).card

/-- In a list that ascends, as many items do not come after an item as its place says. -/
theorem countP_le_getElem {α : Type} [LinearOrder α] {xs : List α} (h : xs.Pairwise (· < ·)) {k : ℕ}
    (hk : k < xs.length) : xs.countP (· ≤ xs[k]) = k + 1 := by
  induction xs generalizing k with
  | nil => cases hk
  | cons x xs ih =>
    obtain ⟨least, rest⟩ := List.pairwise_cons.1 h
    cases k with
    | zero =>
      have none : xs.countP (· ≤ x) = 0 := List.countP_eq_zero.2 fun y hy => by
        simpa using least y hy
      simp [none]
    | succ k =>
      have within : k < xs.length := by simpa using hk
      have le : x ≤ xs[k] := (least _ (List.getElem_mem within)).le
      rw [List.getElem_cons_succ, List.countP_cons_of_pos (by simpa using le), ih rest within]

theorem pairRank_getElem {n k : ℕ} (hk : k < (pairs (List.range n)).length) :
    pairRank n (pairs (List.range n))[k] = k + 1 := by
  have ascending : ((pairs (List.range n)).map toLex).Pairwise (· < ·) :=
    List.pairwise_map.2 (pairwise_pairs List.pairwise_lt_range)
  have place := countP_le_getElem ascending (k := k) (by simpa using hk)
  rw [List.countP_map, List.getElem_map, List.countP_eq_length_filter] at place
  rw [pairRank, ← place, ← List.toFinset_card_of_nodup]
  · congr 1
    ext ⟨i, j⟩
    simp only [Finset.mem_filter, Finset.mem_product, Finset.mem_range, List.mem_toFinset,
      List.mem_filter, mem_pairs_range, Function.comp_apply, decide_eq_true_eq]
    refine ⟨fun ⟨⟨_, hj⟩, lt, le⟩ => ⟨⟨lt, hj⟩, le⟩, fun ⟨⟨lt, hj⟩, le⟩ => ⟨⟨?_, hj⟩, lt, le⟩⟩
    exact lt.trans hj
  · refine List.Nodup.filter _ ?_
    exact (List.pairwise_map.1 ascending).imp fun lt e => lt.ne (congrArg toLex e)

/-! ## The first witness -/

variable (unit : Block s)

/-- What a search finds first in a list that ascends in some order is before all else that it
would find. -/
theorem rel_of_find? {α : Type} {R : α → α → Prop} {p : α → Bool} {xs : List α} (h : xs.Pairwise R)
    {x y : α} (found : xs.find? p = some x) (hy : y ∈ xs) (py : p y = true) : x = y ∨ R x y := by
  obtain ⟨-, before, after, rfl, none⟩ := List.find?_eq_some_iff_append.1 found
  rcases List.mem_append.1 hy with hy | hy
  · exact absurd py (by simpa using none y hy)
  · rcases List.mem_cons.1 hy with rfl | hy
    · exact .inl rfl
    · have rest := (List.pairwise_append.1 h).2.1
      exact .inr ((List.pairwise_cons.1 rest).1 y hy)

/-- Pairs of rows of a unit ascend in their offsets as words do. -/
theorem pairwise_product_zipIdx {α : Type} (xs : List α) :
    (xs.zipIdx ×ˢ xs.zipIdx).Pairwise fun z w => toLex (z.1.2, z.2.2) < toLex (w.1.2, w.2.2) := by
  have ascending := pairwise_snd_zipIdx xs
  simp only [SProd.sprod, List.product, List.pairwise_flatMap]
  refine ⟨fun x _ => List.pairwise_map.2 (ascending.imp fun lt => ?_), ascending.imp ?_⟩
  · exact Prod.Lex.toLex_lt_toLex.2 (.inr ⟨rfl, lt⟩)
  · intro x y lt p hp q hq
    obtain ⟨p, -, rfl⟩ := List.mem_map.1 hp
    obtain ⟨q, -, rfl⟩ := List.mem_map.1 hq
    exact Prod.Lex.toLex_lt_toLex.2 (.inl lt)

/-- The witness of two heads is the least pair of offsets at which their copies have one row. -/
theorem le_of_witness? {g h : Row s} {a b : ℕ} (w : (ofBlock unit).witness? g h = some (a, b))
    {a' b' : ℕ} {x y : Row s} (hx : unit.rows[a']? = some x) (hy : unit.rows[b']? = some y)
    (e : g * x = h * y) : toLex (a, b) ≤ toLex (a', b') := by
  rw [witness?_eq] at w
  obtain ⟨z, found, w⟩ := Option.map_eq_some_iff.1 w
  have mem : ((x, a'), y, b') ∈ unit.rows.zipIdx ×ˢ unit.rows.zipIdx :=
    List.pair_mem_product.2
      ⟨List.mem_zipIdx_iff_getElem?.2 hx, List.mem_zipIdx_iff_getElem?.2 hy⟩
  have first := rel_of_find? (pairwise_product_zipIdx unit.rows) found mem (by simpa using e)
  rw [← w]
  rcases first with rfl | lt
  · exact le_rfl
  · exact lt.le

/-! ## The clash of a pair -/

theorem clashesAt_of_clash? {heads : List (Row s)} {p : (Row s × ℕ) × Row s × ℕ}
    (mem : p ∈ pairs heads.zipIdx) {c : Clash (Row s)} (hc : (ofBlock unit).clash? p = some c) :
    unit.ClashesAt heads (p.1.2, p.2.2) c := by
  obtain ⟨⟨g, i⟩, h, j⟩ := p
  obtain ⟨-, hg, hh⟩ := mem_pairs_zipIdx.1 mem
  obtain ⟨a, b, row, w, hrow, rfl⟩ := clash?_eq_some_iff.1 hc
  obtain ⟨ha, hb, e⟩ := of_witness? unit w
  obtain rfl : unit.rows[a] = row := by
    rw [← Option.some_inj, ← List.getElem?_eq_getElem ha]
    exact hrow
  refine ⟨rfl, ⟨rfl, rfl⟩, ⟨g, h, _, _, hg, hh, hrow, List.getElem?_eq_getElem hb, rfl, e⟩, ?_⟩
  intro g' h' x y a' b' hg' hh' hx hy e'
  obtain rfl := Option.some.inj (hg.symm.trans hg')
  obtain rfl := Option.some.inj (hh.symm.trans hh')
  exact le_of_witness? unit w hx hy e'

/-- What a search tells of its hits, beside what it finds there. -/
theorem forall₂_filter_filterMap {α β γ : Type} {R : β → γ → Prop} {isHit : α → Bool} {f : α → β}
    {hit : α → Option γ} {xs : List α} (hits : ∀ x ∈ xs, (hit x).isSome = isHit x)
    (related : ∀ x ∈ xs, ∀ y, hit x = some y → R (f x) y) :
    List.Forall₂ R ((xs.filter isHit).map f) (xs.filterMap hit) := by
  induction xs with
  | nil => exact .nil
  | cons x xs ih =>
    have rest := ih (fun y hy => hits y (.tail _ hy)) fun y hy => related y (.tail _ hy)
    have here := hits x (.head _)
    cases h : hit x with
    | none =>
      rw [h] at here
      rwa [List.filter_cons_of_neg (by simp [← here]), List.filterMap_cons_none h]
    | some y =>
      rw [h] at here
      rw [List.filter_cons_of_pos here.symm, List.filterMap_cons_some h, List.map_cons]
      exact .cons (related x (.head _) y h) rest

/-- Each pair that is listed has one clash, in the order of the pairs. -/
theorem forall₂_clashingPairs (heads : List (Row s)) :
    List.Forall₂ (unit.ClashesAt heads) ((ofBlock unit).clashingPairs heads)
      ((pairs heads.zipIdx).filterMap (ofBlock unit).clash?) :=
  forall₂_filter_filterMap (fun p _ => isSome_clash? unit p) fun _ mem _ =>
    clashesAt_of_clash? unit mem

/-! ## The unit's own clash -/

/-- The first repeat is at the least offset at which an item stands that stands before. -/
theorem of_firstRepeat? {α : Type} [DecidableEq α] {xs : List α} {c : α × ℕ × ℕ}
    (h : firstRepeat? xs = some c) : xs[c.2.1]? = some c.1 ∧ xs[c.2.2]? = some c.1 ∧
      ∀ i j, i < j → j < xs.length → xs[i]? = xs[j]? → toLex (c.2.2, c.2.1) ≤ toLex (j, i) := by
  obtain ⟨x, hx, hit⟩ := List.exists_of_findSome?_eq_some h
  obtain ⟨again, first, unmet⟩ := getElem?_of_repeatAt? hx hit
  refine ⟨first, again, fun i j lt within same => Prod.Lex.toLex_le_toLex.2 ?_⟩
  have least : c.2.2 ≤ j := by
    have head : (repeatOffsets xs).head? = some c.2.2 := by
      rw [← map_filterMap_repeatAt?, List.head?_map, List.head?_filterMap]
      exact congrArg _ h
    obtain ⟨rest, e⟩ := List.head?_eq_some_iff.1 head
    have mem : j ∈ repeatOffsets xs := mem_repeatOffsets.2 ⟨within, i, lt, same⟩
    have ascending := pairwise_repeatOffsets xs
    rw [e, List.pairwise_cons] at ascending
    rw [e, List.mem_cons] at mem
    exact mem.elim (fun e => e.ge) fun later => (ascending.1 j later).le
  refine least.lt_or_eq.imp id fun (e : c.2.2 = j) => ⟨e, ?_⟩
  by_contra early
  exact unmet i (Nat.lt_of_not_le early) (by rw [same, ← e, again])

theorem clashesWithin_of_innerClash? {heads : List (Row s)} {c : Clash (Row s)}
    (hc : (ofBlock unit).innerClash? heads = some c) : unit.ClashesWithin heads c := by
  cases heads with
  | nil => simp at hc
  | cons g hs =>
    rw [innerClash?_cons, Option.map_eq_some_iff] at hc
    obtain ⟨found, first, rfl⟩ := hc
    obtain ⟨hi, hj, least⟩ := of_firstRepeat? first
    exact ⟨⟨rfl, rfl⟩, (lt_of_firstRepeat? first).1, ⟨g, found.1, rfl, hi, hj, rfl⟩, least⟩

/-! ## How much is looked at -/

/-- A search that stops at the first pair of heads that clashes has looked at as many pairs as the
rank of that pair says. -/
theorem survey_clash?_snd (heads : List (Row s)) :
    (survey true (ofBlock unit).clash? (pairs heads.zipIdx)).2 =
      (((ofBlock unit).clashingPairs heads).head?.map (pairRank heads.length)).getD
        (heads.length * (heads.length - 1) / 2) := by
  have hits : (fun p => ((ofBlock unit).clash? p).isSome) =
      fun p => (ofBlock unit).clash p.1.1 p.2.1 := funext (isSome_clash? unit)
  simp only [survey_true, hits, length_pairs, List.length_zipIdx, clashingPairs,
    List.head?_map, List.head?_filter, List.find?_eq_bind_findIdx?_getElem?]
  cases h : (pairs heads.zipIdx).findIdx? fun p => (ofBlock unit).clash p.1.1 p.2.1 with
  | none => rfl
  | some k =>
    have hk := (List.findIdx?_eq_some_iff_getElem.1 h).1
    have indices := map_pairs_zipIdx heads
    have rank := pairRank_getElem (n := heads.length) (k := k)
      (by rwa [← indices, List.length_map])
    simp only [← indices, List.getElem_map] at rank
    simp only [Option.bind_some, List.getElem?_eq_getElem hk, Option.map_some, Option.getD_some]
    exact rank.symm

/-! ## Reports in full -/

theorem prove_false (heads : List (Row s)) :
    (ofBlock unit).prove heads false =
      ⟨((ofBlock unit).innerClash? heads).toList ++
          (pairs heads.zipIdx).filterMap (ofBlock unit).clash?,
        heads.length * (heads.length - 1) / 2, .relational⟩ := by
  simp [prove, survey_false, length_pairs]

theorem prove_true (heads : List (Row s)) :
    (ofBlock unit).prove heads true =
      ⟨(((ofBlock unit).innerClash? heads).toList ++
          (pairs heads.zipIdx).filterMap (ofBlock unit).clash?).take 1,
        if ((ofBlock unit).innerClash? heads).isSome then 0
        else (((ofBlock unit).clashingPairs heads).head?.map (pairRank heads.length)).getD
          (heads.length * (heads.length - 1) / 2),
        .relational⟩ := by
  cases h : (ofBlock unit).innerClash? heads with
  | some c => simp [prove, h]
  | none =>
    rw [← survey_clash?_snd]
    simp [prove, h, survey_true]

end QuotientTable

/-- **A report by lookup tells every pair of heads whose copies share a row.**

* The pairs ascend as words do, and are all pairs of indices, the first less than the second, of
  heads whose copies share a row. Any number of workers lists them so, in whatever order they take
  the heads.
* A proof that goes on has one clash for each of these pairs, in their order, at the first pair of
  offsets at which the two copies have one row; before them the unit's own clash, if the unit
  repeats a row and there is a head. It looks at all pairs of heads.
* A proof that stops has the first of these clashes. It has looked at no pair if that is the unit's
  own, at the pairs up to the first that clashes if there is one, and else at all of them. -/
theorem QuotientTable.prove_tells_every_pair (unit : Block s) (heads : List (Row s)) :
    let table := QuotientTable.ofBlock unit
    let n := heads.length
    ∃ (pairs : List (ℕ × ℕ)) (inner : Option (Clash (Row s))) (outer : List (Clash (Row s))),
      ((∀ maxWorkers order,
          table.clashingPairsAnyIn maxWorkers order (heads.map .of) = .ok pairs) ∧
        (pairs.Pairwise fun p q => toLex p < toLex q) ∧
        ∀ i j, (i, j) ∈ pairs ↔ i < j ∧ ∃ g h, heads[i]? = some g ∧ heads[j]? = some h ∧
          ∃ x ∈ unit.rows, ∃ y ∈ unit.rows, g * x = h * y) ∧
      ((inner.isSome ↔ ¬ unit.rows.Nodup ∧ 0 < n) ∧ (∀ c ∈ inner, unit.ClashesWithin heads c) ∧
        List.Forall₂ (unit.ClashesAt heads) pairs outer) ∧
      table.proveHeads (heads.map .of) false =
        .ok ⟨inner.toList ++ outer, n * (n - 1) / 2, .relational⟩ ∧
      table.proveHeads (heads.map .of) true =
        .ok ⟨(inner.toList ++ outer).take 1,
          if inner.isSome then 0 else (pairs.head?.map (pairRank n)).getD (n * (n - 1) / 2),
          .relational⟩ := by
  intro table n
  refine ⟨table.clashingPairs heads, table.innerClash? heads, _,
    ⟨fun maxWorkers order => ?_, ?_, fun i j => mem_clashingPairs unit⟩,
    ⟨?_, fun c hc => clashesWithin_of_innerClash? unit hc, forall₂_clashingPairs unit heads⟩,
    ?_, ?_⟩
  · rw [clashingPairsAnyIn_eq, clashingPairsAny_map_of]
  · refine List.pairwise_map.2 (List.Pairwise.filter _ ?_)
    have ascending := pairwise_pairs (List.pairwise_lt_range (n := n))
    rw [← map_pairs_zipIdx] at ascending
    exact List.pairwise_map.1 ascending
  · rw [← Option.ne_none_iff_isSome, ne_eq, innerClash?_eq_none_iff, Classical.not_imp, and_comm,
      List.length_pos_iff]
  · rw [proveHeads_map_of, prove_false]
  · rw [proveHeads_map_of, prove_true]

/-- Two bells. Of three heads the first and the last are the same, so that their pair, which is the
second one that is looked at, clashes; and a unit that repeats rounds clashes with itself. -/
theorem QuotientTable.prove_tells_every_pair_two_bells :
    let s : Stage := ⟨2, by decide, by decide⟩
    let r : Row s := .rounds s
    let q : Row s := .backrounds s
    let unit : Block s := ⟨[r], q, [], by decide, by decide⟩
    let heads : List (Row s) := [r, q, r]
    let repeated : Block s := ⟨[r, q, r], q, [], by decide, by decide⟩
    (∃ c, unit.ClashesAt heads (0, 2) c ∧
      (ofBlock unit).clashingPairsAnyIn (some 2) [2, 0] (heads.map .of) = .ok [(0, 2)] ∧
      (ofBlock unit).proveHeads (heads.map .of) false = .ok ⟨[c], 3, .relational⟩ ∧
      (ofBlock unit).proveHeads (heads.map .of) true = .ok ⟨[c], 2, .relational⟩) ∧
    ∃ c, repeated.ClashesWithin [q] c ∧
      (ofBlock repeated).proveHeads [.of q] true = .ok ⟨[c], 0, .relational⟩ := by
  intro s r q unit heads repeated
  constructor
  · obtain ⟨pairs, inner, outer, ⟨listed, ascending, mem⟩, ⟨within, -, clashes⟩, full, short⟩ :=
      prove_tells_every_pair unit heads
    have only : ∀ p ∈ pairs, p = (0, 2) := by
      rintro ⟨i, j⟩ hp
      obtain ⟨lt, g, h, hg, hh, x, hx, y, hy, e⟩ := (mem i j).1 hp
      have hj : j < 3 := (List.getElem?_eq_some_iff.1 hh).1
      cases List.mem_singleton.1 hx
      cases List.mem_singleton.1 hy
      have apart : ∀ j < 3, ∀ i < j, heads[i]? = heads[j]? → (i, j) = (0, 2) := by decide
      exact apart j hj i lt (by rw [hg, hh, mul_right_cancel e])
    have listed' : pairs = [(0, 2)] := by
      have here : (0, 2) ∈ pairs := (mem 0 2).2
        ⟨by decide, r, r, rfl, rfl, r, .head _, r, .head _, rfl⟩
      obtain ⟨p, rest, rfl⟩ := List.exists_cons_of_ne_nil (List.ne_nil_of_mem here)
      have single : rest = [] := List.eq_nil_iff_forall_not_mem.2 fun p' hp' => by
        have lt := (List.pairwise_cons.1 ascending).1 p' hp'
        rw [only p (.head _), only p' (.tail _ hp')] at lt
        exact lt.false
      rw [single, only p (.head _)]
    obtain rfl : inner = none := by
      rw [← Option.not_isSome_iff_eq_none, within]
      decide
    subst listed'
    obtain ⟨c, rest, clash, last, rfl⟩ := List.forall₂_cons_left_iff.1 clashes
    cases last
    have count : heads.length = 3 := rfl
    have rank : pairRank 3 (0, 2) = 2 := by decide
    simp only [count] at full short
    exact ⟨c, clash, listed _ _, full, by simpa [rank] using short⟩
  · obtain ⟨pairs, inner, outer, -, ⟨some, within, -⟩, -, short⟩ :=
      prove_tells_every_pair repeated [q]
    obtain ⟨c, rfl⟩ := Option.isSome_iff_exists.1 (some.2 ⟨by decide, by decide⟩)
    exact ⟨c, within c rfl, short⟩

end Campanology
