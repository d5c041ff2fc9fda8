import Campanology.Proofs.Truth.Lookups

/-!
# Heads and what lies between them

Two heads clash because of the row that leads from one to the other, not because of where they
begin. So a row may be multiplied to all heads from the left: the table is asked for the same
quotients (`QuotientTable.witness?_mul`), and row by row the same rows are repeated, each multiplied
(`reportRepeats_map_mul`); either way the report changes in its rows alone. Nor does the order of
the heads matter for the verdict, since sharing a row is symmetric, and heads of which some are
false are all false. `proveHeads_of_relative_heads` puts this together for both ways to prove heads.
-/

namespace Campanology

variable {s : Stage}

/-! ## Row by row -/

/-- Rows multiplied from the left have the clashes they had, each of the row multiplied. -/
theorem reportRepeats_map_mul (stop : Bool) (locate : ℕ → Position) (g : Row s)
    (rows : List (Row s)) : reportRepeats stop locate (rows.map (g * ·)) =
      (reportRepeats stop locate rows).map (g * ·) := by
  simp only [reportRepeats, repeats_map (mul_right_injective g), Report.map, List.map_map]
  rfl

namespace Block

theorem prove_begunFrom (g : Row s) (b : Block s) (stop : Bool) :
    (b.begunFrom g).prove stop = (b.prove stop).map (g * ·) :=
  reportRepeats_map_mul stop b.locate g b.rows

theorem copies_map_mul (unit : Block s) (g : Row s) (heads : List (Row s)) :
    unit.copies (heads.map (g * ·)) = (unit.copies heads).map (g * ·) := by
  simp only [copies, List.flatMap_map, List.map_flatMap, List.map_map, Function.comp_def, mul_assoc]

theorem proveCopies_map_mul (unit : Block s) (g : Row s) (heads : List (Row s)) (stop : Bool) :
    unit.proveCopies (heads.map (g * ·)) stop = (unit.proveCopies heads stop).map (g * ·) := by
  rw [proveCopies, copies_map_mul, reportRepeats_map_mul]
  rfl

end Block

/-! ## By lookup -/

namespace QuotientTable

section Multiplied

variable (t : QuotientTable s) (f : Row s)

/-- What is looked up for two heads is what lies between them. -/
theorem witness?_mul (g h : Row s) : t.witness? (f * g) (f * h) = t.witness? g h := by
  rw [witness?, witness?, mul_inv_rev, mul_assoc, inv_mul_cancel_left]

theorem clash?_map_mul (p : (Row s × ℕ) × Row s × ℕ) :
    t.clash? (Prod.map (Prod.map (f * ·) id) (Prod.map (f * ·) id) p) =
      (t.clash? p).map (Clash.map (f * ·)) := by
  obtain ⟨⟨g, i⟩, h, j⟩ := p
  simp only [clash?, Prod.map_apply, id, witness?_mul]
  cases t.witness? g h with
  | none => rfl
  | some w =>
    cases hrow : t.unit.rows[w.1]? with
    | none => simp [hrow]
    | some row => simp [hrow, Clash.map, mul_assoc]

theorem innerClash?_map_mul (heads : List (Row s)) :
    t.innerClash? (heads.map (f * ·)) = (t.innerClash? heads).map (Clash.map (f * ·)) := by
  cases heads with
  | nil => simp
  | cons g hs => cases h : t.inner <;> simp [innerClash?, h, Clash.map, mul_assoc]

theorem prove_map_mul (heads : List (Row s)) (stop : Bool) :
    t.prove (heads.map (f * ·)) stop = (t.prove heads stop).map (f * ·) := by
  unfold prove
  rw [innerClash?_map_mul, List.zipIdx_map, pairs_map, survey_map stop (clash?_map_mul t f)]
  cases t.innerClash? heads <;> cases stop <;> simp [Report.map]

end Multiplied

end QuotientTable

/-! ## Verdicts -/

variable (unit : Block s)

/-- Copies are apart in whatever order their heads are given. -/
theorem Block.apart_perm {heads heads' : List (Row s)} (h : heads.Perm heads') :
    unit.Apart heads ↔ unit.Apart heads' := by
  have nil : heads ≠ [] ↔ heads' ≠ [] :=
    not_congr ⟨fun e => (e ▸ h).nil_eq.symm, fun e => (e ▸ h).eq_nil⟩
  have apart := h.pairwise_iff (R := fun g h => ¬ unit.Shares g h) fun apart shares =>
    apart shares.symm
  rw [Apart, Apart, nil, apart]

/-- Of copies that are apart, fewer are apart too. -/
theorem Block.Apart.sublist {unit : Block s} {heads heads' : List (Row s)}
    (all : unit.Apart heads') (h : heads.Sublist heads') : unit.Apart heads :=
  ⟨fun some => all.1 fun none => some (List.sublist_nil.1 (none ▸ h)), all.2.sublist h⟩

/-- **Whether heads are true is a matter of what lies between them.** Row by row as well as by
lookup,

* the verdict is the same in whatever order the heads are given;
* heads that are all multiplied from the left by one row have the same report, but that the row of
  each clash is multiplied too;
* heads that are false stay so with further heads among them.

A block that is begun from another row has the report of the block, with the rows multiplied. -/
theorem proveHeads_of_relative_heads (unit : Block s) (stop : Bool) :
    ∃ direct lookup : List (Row s) → Report (Row s),
      (∀ heads, unit.proveHeads (heads.map .of) stop = .ok (direct heads) ∧
        (QuotientTable.ofBlock unit).proveHeads (heads.map .of) stop = .ok (lookup heads)) ∧
      (∀ heads heads', heads.Perm heads' → (direct heads).isTrue = (direct heads').isTrue ∧
        (lookup heads).isTrue = (lookup heads').isTrue) ∧
      (∀ heads g, direct (heads.map (g * ·)) = (direct heads).map (g * ·) ∧
        lookup (heads.map (g * ·)) = (lookup heads).map (g * ·)) ∧
      (∀ heads heads', heads.Sublist heads' →
        ((direct heads).isTrue = false → (direct heads').isTrue = false) ∧
        ((lookup heads).isTrue = false → (lookup heads').isTrue = false)) ∧
      ∀ g : Row s, ∃ b, unit.begunFromAny (.of g) = .ok b ∧
        b.prove stop = (unit.prove stop).map (g * ·) := by
  have agree := fun heads => isTrue_prove_eq_proveCopies unit heads stop stop
  refine ⟨fun heads => unit.proveCopies heads stop,
    fun heads => (QuotientTable.ofBlock unit).prove heads stop,
    fun heads => ⟨unit.proveHeads_map_of heads stop, QuotientTable.proveHeads_map_of _ heads stop⟩,
    fun heads heads' perm => ?_, fun heads g => ?_, fun heads heads' among => ?_, fun g => ?_⟩
  · have same : ((QuotientTable.ofBlock unit).prove heads stop).isTrue =
        ((QuotientTable.ofBlock unit).prove heads' stop).isTrue := by
      rw [Bool.eq_iff_iff, QuotientTable.isTrue_prove, QuotientTable.isTrue_prove,
        unit.apart_perm perm]
    exact ⟨by rw [← agree, ← agree, same], same⟩
  · exact ⟨unit.proveCopies_map_mul g heads stop, QuotientTable.prove_map_mul _ g heads stop⟩
  · have fewer : ((QuotientTable.ofBlock unit).prove heads stop).isTrue = false →
        ((QuotientTable.ofBlock unit).prove heads' stop).isTrue = false := fun no => by
      rw [Bool.eq_false_iff, ne_eq, QuotientTable.isTrue_prove] at no ⊢
      exact mt (·.sublist among) no
    exact ⟨by rwa [← agree, ← agree], fewer⟩
  · exact ⟨_, unit.begunFromAny_of g, unit.prove_begunFrom g stop⟩

/-- Two bells: copies of rounds alone, from backrounds, rounds and backrounds again. They are false
row by row and by lookup, and so in another order and with a further head; and begun from backrounds
instead, the report names rounds in place of backrounds. -/
theorem proveHeads_of_relative_heads_two_bells :
    let s : Stage := ⟨2, by decide, by decide⟩
    let r : Row s := .rounds s
    let q : Row s := .backrounds s
    let unit : Block s := ⟨[r], q, [], by decide, by decide⟩
    let table := QuotientTable.ofBlock unit
    ([q, r, q].Perm [r, q, q] ∧ [q, q].Sublist [q, r, q]) ∧
      (∃ report report', unit.proveHeads [.of q, .of r, .of q] false = .ok report ∧
        unit.proveHeads [.of r, .of q, .of q] false = .ok report' ∧
        report.isTrue = false ∧ report'.isTrue = false ∧
        unit.proveHeads [.of (q * q), .of (q * r), .of (q * q)] false =
          .ok (report.map (q * ·))) ∧
      ∃ report report', table.proveHeads [.of q, .of r, .of q] false = .ok report ∧
        table.proveHeads [.of r, .of q, .of q] false = .ok report' ∧
        report.isTrue = false ∧ report'.isTrue = false ∧
        table.proveHeads [.of (q * q), .of (q * r), .of (q * q)] false =
          .ok (report.map (q * ·)) := by
  intro s r q unit table
  have perm : [q, r, q].Perm [r, q, q] := .swap r q [q]
  have among : [q, q].Sublist [q, r, q] := by simp
  obtain ⟨direct, lookup, ok, perms, moved, fewer, -⟩ := proveHeads_of_relative_heads unit false
  have verdict := isTrue_of_proveHeads [q, q] (ok [q, q]).1 (ok [q, q]).2
  have repeats : ¬ (unit.copies [q, q]).Nodup := by decide
  have two : (direct [q, q]).isTrue = false := Bool.eq_false_iff.2 (mt verdict.1.1 repeats)
  have two' : (lookup [q, q]).isTrue = false := Bool.eq_false_iff.2 (mt verdict.2.1 repeats)
  have three := fewer _ _ among
  refine ⟨⟨perm, among⟩, ⟨_, _, (ok [q, r, q]).1, (ok [r, q, q]).1, three.1 two, ?_, ?_⟩,
    _, _, (ok [q, r, q]).2, (ok [r, q, q]).2, three.2 two', ?_, ?_⟩
  · rw [← (perms _ _ perm).1]
    exact three.1 two
  · rw [← (moved [q, r, q] q).1]
    exact (ok ([q, r, q].map (q * ·))).1
  · rw [← (perms _ _ perm).2]
    exact three.2 two'
  · rw [← (moved [q, r, q] q).2]
    exact (ok ([q, r, q].map (q * ·))).2

end Campanology
