import Mathlib.Combinatorics.SimpleGraph.Connectivity.Connected
import Campanology.Proofs.Truth.Quotients

/-!
# Two ways to prove heads

Heads are proved row by row, or by looking up pairs of them in the table of the unit. Both ways come
to the same verdict, and name the same clash first if it is the unit's own (`proveHeads_agree`).
Their full reports differ, since the first way compares a row only with its first occurrence and the
second lists all pairs of heads; but they join the same heads, directly or through others
(`reachable_clashGraph_iff`): of the copies which ring a row, all are joined to the first.
-/

namespace Campanology

variable {s : Stage}

/-! ## One verdict -/

@[simp] theorem Block.proveHeads_map_of (unit : Block s) (heads : List (Row s)) (stop : Bool) :
    unit.proveHeads (heads.map .of) stop = .ok (unit.proveCopies heads stop) := by
  rw [Block.proveHeads, requireAll_map_of]
  rfl

@[simp] theorem QuotientTable.proveHeads_map_of (t : QuotientTable s) (heads : List (Row s))
    (stop : Bool) : t.proveHeads (heads.map .of) stop = .ok (t.prove heads stop) := by
  rw [QuotientTable.proveHeads, requireAll_map_of]
  rfl

@[simp] theorem QuotientTable.clashingPairsAny_map_of (t : QuotientTable s)
    (heads : List (Row s)) : t.clashingPairsAny (heads.map .of) = .ok (t.clashingPairs heads) := by
  rw [QuotientTable.clashingPairsAny, requireAll_map_of]
  rfl

@[simp] theorem QuotientTable.clashAny_of (t : QuotientTable s) (g h : Row s) :
    t.clashAny (.of g) (.of h) = .ok (t.clash g h) := by
  rw [QuotientTable.clashAny, Staged.require_of, Staged.require_of]
  rfl

theorem isTrue_prove_eq_proveCopies (unit : Block s) (heads : List (Row s)) (stop stop' : Bool) :
    ((QuotientTable.ofBlock unit).prove heads stop).isTrue =
      (unit.proveCopies heads stop').isTrue := by
  rw [Bool.eq_iff_iff, QuotientTable.isTrue_prove, Block.proveCopies, isTrue_reportRepeats,
    Block.nodup_copies]

/-- What both ways report of heads is true exactly if their copies repeat no row. -/
theorem isTrue_of_proveHeads {unit : Block s} (heads : List (Row s)) {stop : Bool}
    {direct lookup : Report (Row s)} (rows : unit.proveHeads (heads.map .of) stop = .ok direct)
    (table : (QuotientTable.ofBlock unit).proveHeads (heads.map .of) stop = .ok lookup) :
    (direct.isTrue = true ↔ (unit.copies heads).Nodup) ∧
      (lookup.isTrue = true ↔ (unit.copies heads).Nodup) := by
  rw [Block.proveHeads_map_of, Except.ok.injEq] at rows
  rw [QuotientTable.proveHeads_map_of, Except.ok.injEq] at table
  rw [← rows, ← table, isTrue_prove_eq_proveCopies unit heads stop stop, Block.proveCopies,
    isTrue_reportRepeats]
  exact ⟨Iff.rfl, Iff.rfl⟩

/-- A row that the unit repeats is the first clash, in the copy of the first head, either way. -/
theorem head?_clashes_of_repeat {unit : Block s} {c : Row s × ℕ × ℕ}
    (h : firstRepeat? unit.rows = some c) (g : Row s) (hs : List (Row s)) (stop stop' : Bool) :
    let clash : Clash (Row s) := ⟨g * c.1, ⟨0, c.2.1, c.2.1⟩, ⟨0, c.2.2, c.2.2⟩⟩
    ((QuotientTable.ofBlock unit).prove (g :: hs) stop).clashes.head? = some clash ∧
      (unit.proveCopies (g :: hs) stop').clashes.head? = some clash := by
  obtain ⟨before, within⟩ := lt_of_firstRepeat? h
  have located : ∀ {i : ℕ}, i < unit.rows.length →
      Block.locateCopy unit.rows.length i = ⟨0, i, i⟩ := fun {i} hi => by
    rw [Block.locateCopy, Nat.div_eq_of_lt hi, Nat.mod_eq_of_lt hi]
  constructor
  · rw [QuotientTable.head?_prove, QuotientTable.innerClash?_cons, h]
    rfl
  · rw [Block.proveCopies, head?_reportRepeats, Block.firstRepeat?_copies unit h, Option.map_some,
      located within, located (before.trans within)]

/-- **Both ways come to one verdict**, whether or not either stops at the first clash. If the unit
repeats a row, then both name the same clash first. Heads of which some are at another stage are
refused by both on account of the same head. -/
theorem proveHeads_agree (unit : Block s) (heads : List (Staged Row)) (stop stop' : Bool) :
    ((∀ g ∈ heads, g.stage = s) →
      ∃ lookup direct,
        (QuotientTable.ofBlock unit).proveHeads heads stop = .ok lookup ∧
        unit.proveHeads heads stop' = .ok direct ∧
        lookup.isTrue = direct.isTrue ∧
        (¬ unit.rows.Nodup → heads ≠ [] →
          ∃ c, lookup.clashes.head? = some c ∧ direct.clashes.head? = some c)) ∧
    ((∃ g ∈ heads, g.stage ≠ s) →
      ∃ g ∈ heads, g.stage ≠ s ∧
        (QuotientTable.ofBlock unit).proveHeads heads stop = .error ⟨s, g.stage, "check"⟩ ∧
        unit.proveHeads heads stop' = .error ⟨s, g.stage, "check_heads"⟩) := by
  constructor
  · intro same
    obtain ⟨heads, rfl⟩ := exists_map_of same
    refine ⟨_, _, QuotientTable.proveHeads_map_of _ heads stop, unit.proveHeads_map_of heads stop',
      isTrue_prove_eq_proveCopies unit heads stop stop', fun repeated some => ?_⟩
    cases heads with
    | nil => exact absurd rfl some
    | cons g hs =>
      obtain ⟨c, hc⟩ := Option.ne_none_iff_exists'.1 (mt firstRepeat?_eq_none_iff.1 repeated)
      exact ⟨_, head?_clashes_of_repeat hc g hs stop stop'⟩
  · rintro ⟨f, hf, other⟩
    have found : (heads.find? fun g => g.stage ≠ s).isSome := by
      rw [List.find?_isSome]
      exact ⟨f, hf, by simpa using other⟩
    obtain ⟨g, hg⟩ := Option.isSome_iff_exists.1 found
    refine ⟨g, List.mem_of_find?_eq_some hg, by simpa using List.find?_some hg, ?_, ?_⟩
    · rw [QuotientTable.proveHeads, requireAll_of_find? hg]
      rfl
    · rw [Block.proveHeads, requireAll_of_find? hg]
      rfl

/-- At two bells, a unit which repeats rounds, rung from rounds and from backrounds; and rung from
heads one of which is at three bells. -/
theorem proveHeads_agree_two_bells :
    let s : Stage := ⟨2, by decide, by decide⟩
    let unit : Block s :=
      ⟨[.rounds s, .backrounds s, .rounds s], .backrounds s, [], by simp, by simp⟩
    let heads : List (Staged Row) := [.of (.rounds s), .of (.backrounds s)]
    let mixed : List (Staged Row) :=
      [.of (.backrounds s), .of (.rounds ⟨3, by decide, by decide⟩)]
    ((∀ g ∈ heads, g.stage = s) ∧ ¬ unit.rows.Nodup ∧ heads ≠ [] ∧ ∃ g ∈ mixed, g.stage ≠ s) ∧
      (∃ lookup direct,
        (QuotientTable.ofBlock unit).proveHeads heads false = .ok lookup ∧
        unit.proveHeads heads true = .ok direct ∧ lookup.isTrue = direct.isTrue ∧
        ∃ c, lookup.clashes.head? = some c ∧ direct.clashes.head? = some c) ∧
      ∃ g ∈ mixed, g.stage ≠ s ∧
        (QuotientTable.ofBlock unit).proveHeads mixed true = .error ⟨s, g.stage, "check"⟩ ∧
        unit.proveHeads mixed true = .error ⟨s, g.stage, "check_heads"⟩ := by
  intro s unit heads mixed
  have same : ∀ g ∈ heads, g.stage = s := by simp [heads, Staged.of]
  have repeated : ¬ unit.rows.Nodup := by simp [unit]
  have other : ∃ g ∈ mixed, g.stage ≠ s := ⟨_, List.mem_cons_of_mem _ (.head _), by decide⟩
  obtain ⟨lookup, direct, hl, hd, verdict, first⟩ :=
    (proveHeads_agree unit heads false true).1 same
  have some : heads ≠ [] := List.cons_ne_nil _ _
  exact ⟨⟨same, repeated, some, other⟩, ⟨lookup, direct, hl, hd, verdict, first repeated some⟩,
    (proveHeads_agree unit mixed true true).2 other⟩

/-! ## Heads joined by clashes -/

/-- The graph of `n` heads in which a report joins the two heads of each clash. -/
def clashGraph (n : ℕ) (r : Report (Row s)) : SimpleGraph (Fin n) :=
  SimpleGraph.fromRel fun i j => ∃ c ∈ r.clashes, c.first.lead = i ∧ c.second.lead = j

/-- Joined heads stay joined, directly or through others, if the ends of every edge do. -/
theorem reachable_of_adj {n : ℕ} {G H : SimpleGraph (Fin n)}
    (h : ∀ i j, G.Adj i j → H.Reachable i j) {i j : Fin n} : G.Reachable i j → H.Reachable i j := by
  rintro ⟨walk⟩
  induction walk with
  | nil => exact .refl _
  | cons adj _ ih => exact (h _ _ adj).trans ih

theorem clashGraph_adj_imp {n : ℕ} {r : Report (Row s)} {P : Fin n → Fin n → Prop}
    (symm : ∀ {i j}, P i j → P j i)
    (h : ∀ c ∈ r.clashes, ∀ i j : Fin n, c.first.lead = i → c.second.lead = j → i ≠ j → P i j)
    (i j : Fin n) (adj : (clashGraph n r).Adj i j) : P i j := by
  obtain ⟨ne, ⟨c, hc, hi, hj⟩ | ⟨c, hc, hj, hi⟩⟩ := adj
  · exact h c hc i j hi hj ne
  · exact symm (h c hc j i hj hi ne.symm)

theorem reachable_of_clash {n : ℕ} {r : Report (Row s)} {c : Clash (Row s)} (hc : c ∈ r.clashes)
    {i j : Fin n} (hi : c.first.lead = i) (hj : c.second.lead = j) :
    (clashGraph n r).Reachable i j := by
  by_cases same : i = j
  · exact same ▸ .refl _
  · exact SimpleGraph.Adj.reachable ⟨same, .inl ⟨c, hc, hi, hj⟩⟩

section Joined

variable (unit : Block s) (heads : List (Row s))

/-- A clash found row by row is between two copies of the heads, which share its row if they are
two; the first occurrence is in the earlier one. -/
theorem of_mem_clashes_proveCopies {c : Clash (Row s)}
    (hc : c ∈ (unit.proveCopies heads false).clashes) :
    c.first.lead ≤ c.second.lead ∧ ∃ g h, heads[c.first.lead]? = some g ∧
      heads[c.second.lead]? = some h ∧ unit.Shares g h := by
  obtain ⟨j, hj, before, rfl⟩ := (mem_clashes_reportRepeats _ _).1 hc
  have hi := before.trans hj
  obtain ⟨g, hg, x, hx, first⟩ := unit.exists_getElem_copies hi
  obtain ⟨h, hh, y, hy, second⟩ := unit.exists_getElem_copies hj
  have same : g * x = h * y := first.symm.trans ((List.getElem_idxOf hi).trans second)
  exact ⟨Nat.div_le_div_right before.le, g, h, hg, hh, x, hx, y, hy, same⟩

/-- A row in a copy is joined to the copy in which it occurs first. -/
theorem reachable_first {i a : ℕ} (hi : i < heads.length) (ha : a < unit.rows.length) :
    ∃ f : Fin heads.length,
      f.val = (unit.copies heads).idxOf (heads[i] * unit.rows[a]) / unit.rows.length ∧
      (clashGraph heads.length (unit.proveCopies heads false)).Reachable f ⟨i, hi⟩ := by
  obtain ⟨hj, row⟩ := List.getElem?_eq_some_iff.1 (unit.getElem?_copies hi ha)
  have copy : (i * unit.rows.length + a) / unit.rows.length = i := by
    rw [Nat.mul_comm, Nat.mul_add_div (Nat.zero_lt_of_lt ha), Nat.div_eq_of_lt ha, Nat.add_zero]
  have le := idxOf_getElem_le hj
  refine ⟨⟨_, (unit.offset_lt (le.trans_lt hj)).1⟩,
    congrArg (fun r => (unit.copies heads).idxOf r / unit.rows.length) row, ?_⟩
  rcases le.lt_or_eq with before | first
  · have hc := (mem_clashes_reportRepeats (Block.locateCopy unit.rows.length)
      (unit.copies heads)).2 ⟨_, hj, before, rfl⟩
    exact reachable_of_clash hc rfl copy
  · have here : (unit.copies heads).idxOf (unit.copies heads)[i * unit.rows.length + a] /
        unit.rows.length = i := by rw [first, copy]
    simp only [here]
    exact .refl _

/-- Heads whose copies share a row are joined row by row, through the copy which rings it first. -/
theorem reachable_of_shares {i j : ℕ} (hi : i < heads.length) (hj : j < heads.length)
    (shares : unit.Shares heads[i] heads[j]) :
    (clashGraph heads.length (unit.proveCopies heads false)).Reachable ⟨i, hi⟩ ⟨j, hj⟩ := by
  obtain ⟨x, hx, y, hy, e⟩ := shares
  obtain ⟨a, ha, rfl⟩ := List.getElem_of_mem hx
  obtain ⟨b, hb, rfl⟩ := List.getElem_of_mem hy
  obtain ⟨f, hf, joined⟩ := reachable_first unit heads hi ha
  obtain ⟨f', hf', joined'⟩ := reachable_first unit heads hj hb
  have same : f = f' := Fin.ext (by rw [hf, hf', e])
  exact joined.symm.trans (same ▸ joined')

/-- The clash that a lookup finds is the unit's own, in the copy of the first head, or between two
copies which share a row. -/
theorem of_mem_clashes_prove {c : Clash (Row s)}
    (hc : c ∈ ((QuotientTable.ofBlock unit).prove heads false).clashes) :
    (heads ≠ [] ∧ c.first.lead = 0 ∧ c.second.lead = 0) ∨
      c.first.lead < c.second.lead ∧ ∃ g h, heads[c.first.lead]? = some g ∧
        heads[c.second.lead]? = some h ∧ unit.Shares g h := by
  rw [QuotientTable.clashes_prove_false, List.mem_append, Option.mem_toList, List.mem_filterMap]
    at hc
  rcases hc with hc | ⟨⟨⟨g, i⟩, h, j⟩, mem, hc⟩
  · cases heads with
    | nil => simp at hc
    | cons g hs =>
      rw [QuotientTable.innerClash?_cons, Option.map_eq_some_iff] at hc
      obtain ⟨r, -, rfl⟩ := hc
      exact .inl ⟨by simp, rfl, rfl⟩
  · obtain ⟨hi, hj, shares⟩ := QuotientTable.of_clash? unit hc
    obtain ⟨lt, hg, hh⟩ := QuotientTable.mem_pairs_zipIdx.1 mem
    rw [hi, hj]
    exact .inr ⟨lt, g, h, hg, hh, shares⟩

/-- Heads whose copies share a row are joined by the lookup of the pair. -/
theorem exists_mem_clashes_prove {i j : ℕ} {g h : Row s} (lt : i < j) (hi : heads[i]? = some g)
    (hj : heads[j]? = some h) (shares : unit.Shares g h) :
    ∃ c ∈ ((QuotientTable.ofBlock unit).prove heads false).clashes,
      c.first.lead = i ∧ c.second.lead = j := by
  have mem : ((g, i), (h, j)) ∈ QuotientTable.pairs heads.zipIdx :=
    QuotientTable.mem_pairs_zipIdx.2 ⟨lt, hi, hj⟩
  obtain ⟨c, hc⟩ := QuotientTable.exists_clash? unit (p := ((g, i), (h, j))) shares
  have leads := QuotientTable.of_clash? unit hc
  refine ⟨c, ?_, leads.1, leads.2.1⟩
  rw [QuotientTable.clashes_prove_false, List.mem_append, List.mem_filterMap]
  exact .inr ⟨_, mem, hc⟩

end Joined

/-- **Both ways join the same heads**, directly or through others. A clash row by row between two
copies is of a pair which the table lists, and the clashes of both reports are between copies of the
heads. -/
theorem reachable_clashGraph_iff (unit : Block s) (heads : List (Row s)) :
    ∃ direct lookup pairs,
      unit.proveHeads (heads.map .of) false = .ok direct ∧
      (QuotientTable.ofBlock unit).proveHeads (heads.map .of) false = .ok lookup ∧
      (QuotientTable.ofBlock unit).clashingPairsAny (heads.map .of) = .ok pairs ∧
      (∀ c ∈ direct.clashes, c.first.lead ≠ c.second.lead →
        c.first.lead < c.second.lead ∧ (c.first.lead, c.second.lead) ∈ pairs) ∧
      (∀ c ∈ direct.clashes ++ lookup.clashes,
        c.first.lead < heads.length ∧ c.second.lead < heads.length) ∧
      ∀ i j : Fin heads.length, (clashGraph heads.length direct).Reachable i j ↔
        (clashGraph heads.length lookup).Reachable i j := by
  refine ⟨_, _, _, unit.proveHeads_map_of heads false,
    QuotientTable.proveHeads_map_of _ heads false,
    QuotientTable.clashingPairsAny_map_of _ heads, ?_, ?_, fun i j => ⟨?_, ?_⟩⟩
  · intro c hc ne
    obtain ⟨le, shares⟩ := of_mem_clashes_proveCopies unit heads hc
    have lt := le.lt_of_ne ne
    exact ⟨lt, (QuotientTable.mem_clashingPairs unit).2 ⟨lt, shares⟩⟩
  · intro c hc
    rcases List.mem_append.1 hc with hc | hc
    · obtain ⟨-, g, h, hg, hh, -⟩ := of_mem_clashes_proveCopies unit heads hc
      exact ⟨(List.getElem?_eq_some_iff.1 hg).1, (List.getElem?_eq_some_iff.1 hh).1⟩
    · rcases of_mem_clashes_prove unit heads hc with ⟨ne, hi, hj⟩ | ⟨-, g, h, hg, hh, -⟩
      · have := List.length_pos_iff.2 ne
        omega
      · exact ⟨(List.getElem?_eq_some_iff.1 hg).1, (List.getElem?_eq_some_iff.1 hh).1⟩
  · apply reachable_of_adj
    apply clashGraph_adj_imp SimpleGraph.Reachable.symm
    intro c hc i j hi hj ne
    obtain ⟨le, g, h, hg, hh, shares⟩ := of_mem_clashes_proveCopies unit heads hc
    have lt := le.lt_of_ne fun e => ne (Fin.ext (hi ▸ hj ▸ e))
    obtain ⟨c', hc', hi', hj'⟩ := exists_mem_clashes_prove unit heads lt hg hh shares
    exact reachable_of_clash hc' (hi'.trans hi) (hj'.trans hj)
  · apply reachable_of_adj
    apply clashGraph_adj_imp SimpleGraph.Reachable.symm
    intro c hc i j hi hj ne
    rcases of_mem_clashes_prove unit heads hc with ⟨-, hi', hj'⟩ | ⟨-, g, h, hg, hh, shares⟩
    · exact absurd (Fin.ext (by omega)) ne
    · rw [hi, List.getElem?_eq_getElem i.isLt, Option.some_inj] at hg
      rw [hj, List.getElem?_eq_getElem j.isLt, Option.some_inj] at hh
      exact reachable_of_shares unit heads i.isLt j.isLt (hg ▸ hh ▸ shares)

/-- At two bells, three copies of a single row: row by row, only the first copy is named in a clash
with each of the others, and yet these are joined as they are by the table. -/
theorem reachable_clashGraph_iff_three_copies :
    let s : Stage := ⟨2, by decide, by decide⟩
    let unit : Block s := ⟨[.rounds s], .backrounds s, [], by simp, by simp⟩
    let heads : List (Row s) := [.backrounds s, .backrounds s, .backrounds s]
    ∃ direct lookup pairs,
      unit.proveHeads (heads.map .of) false = .ok direct ∧
      (QuotientTable.ofBlock unit).proveHeads (heads.map .of) false = .ok lookup ∧
      (QuotientTable.ofBlock unit).clashingPairsAny (heads.map .of) = .ok pairs ∧
      (∃ c ∈ direct.clashes, c.first.lead = 0 ∧ c.second.lead = 2 ∧ (0, 2) ∈ pairs) ∧
      ((clashGraph 3 direct).Reachable 1 2 ↔ (clashGraph 3 lookup).Reachable 1 2) := by
  intro s unit heads
  obtain ⟨direct, lookup, pairs, hd, hl, hp, named, -, joined⟩ :=
    reachable_clashGraph_iff unit heads
  refine ⟨direct, lookup, pairs, hd, hl, hp, ?_, joined 1 2⟩
  obtain rfl : unit.proveCopies heads false = direct := by simpa using hd
  have first : (unit.copies heads).idxOf (unit.copies heads)[2] = 0 := by
    simp [unit, heads, Block.copies]
  have mem := (mem_clashes_reportRepeats (Block.locateCopy unit.rows.length)
    (unit.copies heads)).2 ⟨2, by simp [unit, heads], by omega, rfl⟩
  have located : ∀ j, Block.locateCopy unit.rows.length j = ⟨j, 0, j⟩ := fun j => by
    simp [unit, Block.locateCopy, Nat.mod_one]
  rw [first, located, located] at mem
  exact ⟨_, mem, rfl, rfl, (named _ mem (by decide)).2⟩

end Campanology
