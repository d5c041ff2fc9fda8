import Campanology.Proofs.Change.Runs
import Campanology.Proofs.Change.Segment
import Campanology.Proofs.Method.PlainCourse

/-!
# Changes rung backwards

A change undoes itself. The row to which changes lead backwards is therefore the inverse of the one
to which they lead forwards (`Change.product_reverse`), and changes that are the same backwards lead
to a row which is its own inverse.

Such are the changes of a segment that turns. So a method in one such segment comes to rounds after
two leads at most. A method in two has a lead head `a * b` of which both factors are their own
inverses; its inverse is `b * a`, which is the lead head again, seen from `a`
(`Method.palindromes_undo_themselves`).
-/

namespace Campanology

namespace Change

variable {s : Stage}

/-- The row to which changes lead from a row. -/
def rowAfter (r : Row s) (cs : List (Change s)) : Row s := cs.foldl (fun r c => c.next r) r

theorem rowAfter_eq (r : Row s) (cs : List (Change s)) : rowAfter r cs = r * product cs :=
  foldl_next cs r

theorem rowAfter_rounds (cs : List (Change s)) : rowAfter (.rounds s) cs = product cs := by
  rw [rowAfter_eq, Row.rounds_eq_one, one_mul]

/-- Changes lead backwards to the inverse of the row to which they lead forwards. -/
theorem product_reverse (cs : List (Change s)) : product cs.reverse = (product cs)⁻¹ := by
  induction cs with
  | nil => simp
  | cons c cs ih =>
    rw [List.reverse_cons, product_append, ih, product_cons, product_cons, product_nil, mul_one,
      mul_inv_rev, c.inv_row]

/-- Changes that are the same backwards lead to a row which is its own inverse. -/
theorem inv_product_of_reverse {cs : List (Change s)} (same : cs.reverse = cs) :
    (product cs)⁻¹ = product cs := by
  rw [← product_reverse, same]

theorem Segment.inv_product_rung {company : Bool} {b : Segment s} (turns : b.turns company) :
    (product (b.rung company))⁻¹ = product (b.rung company) :=
  inv_product_of_reverse (b.reverse_rung turns)

end Change

open Change

theorem Row.order_le_two {s : Stage} {a : Row s} (self : a⁻¹ = a) : a.order ≤ 2 := by
  have twice : a ^ 2 = 1 := by
    rw [pow_two]
    nth_rewrite 1 [← self]
    exact inv_mul_cancel a
  rw [Row.order_eq_orderOf]
  exact orderOf_le_of_pow_eq_one Nat.two_pos twice

/-- The inverse of a product of two rows which are their own inverses is the product seen from the
first. -/
theorem Row.inv_mul_eq_conj {s : Stage} {a b : Row s} (ha : a⁻¹ = a) (hb : b⁻¹ = b) :
    (a * b)⁻¹ = a * (a * b) * a⁻¹ :=
  calc (a * b)⁻¹ = b * a⁻¹ := by rw [mul_inv_rev, hb]
    _ = a⁻¹ * (a * b) * a⁻¹ := by rw [inv_mul_cancel_left]
    _ = a * (a * b) * a⁻¹ := by rw [ha]

namespace Method

variable {m : Method}

/-- A method of some notation is rung as the segments that are written there. -/
theorem exists_segments_of_ofNotation {name text : String} {stage : Stage}
    {classification : Classification} {statedTitle : Option String}
    (made : Method.ofNotation name text stage classification statedTitle = .ok m) :
    ∃ segments, List.Forall₂ (ShowsSegment m.stage) (text.toList.splitOn ',') segments ∧
      segments.flatMap (Segment.rung (',' ∈ text.toList)) = m.changes := by
  unfold Method.ofNotation at made
  split at made
  · rename_i lead reads
    obtain rfl := Except.ok.inj made
    exact parseLead_eq_ok_iff.1 reads
  · cases made

/-- The lead head is the row to which the changes of a lead lead from rounds. -/
theorem leadHead_eq_rowAfter (m : Method) : m.leadHead = rowAfter (.rounds m.stage) m.changes := rfl

/-- A method in a single segment that turns has at most two leads in its course. -/
theorem leadsPerCourse_le_two {company : Bool} {b : Segment m.stage} (turns : b.turns company)
    (rung : b.rung company = m.changes) : m.leadsPerCourse ≤ 2 := by
  refine Row.order_le_two ?_
  rw [leadHead_eq_product, ← rung, Segment.inv_product_rung turns]

/-- A method in two segments that turn has a lead head which the row of the first turns into its
inverse. -/
theorem inv_leadHead {company : Bool} {a b : Segment m.stage} (ha : a.turns company)
    (hb : b.turns company) (rung : a.rung company ++ b.rung company = m.changes) :
    m.leadHead⁻¹ =
      product (a.rung company) * m.leadHead * (product (a.rung company))⁻¹ := by
  rw [leadHead_eq_product, ← rung, product_append]
  exact Row.inv_mul_eq_conj (Segment.inv_product_rung ha) (Segment.inv_product_rung hb)

/-- **Changes rung backwards undo themselves.** Changes lead backwards to the inverse of the row to
which they lead forwards, and back to any row from which they were rung. Each segment of a lead that
turns leads from rounds to a row which is its own inverse. A method is rung as its segments are, one
after another, and its lead head is the row to which they lead. In a single segment marked to turn
it has at most two leads in its course; if it is written in two segments which turn, its lead head
is turned into its inverse by the row to which the first of them leads. -/
theorem palindromes_undo_themselves :
    (∀ (s : Stage) (cs : List (Change s)),
      rowAfter (.rounds s) cs.reverse = (rowAfter (.rounds s) cs)⁻¹ ∧
      ∀ r, rowAfter (rowAfter r cs) cs.reverse = r) ∧
    (∀ (s : Stage) (text : String) (cs : List (Change s)), parseLead s text = .ok cs →
      let company : Bool := ',' ∈ text.toList
      ∃ segments, List.Forall₂ (ShowsSegment s) (text.toList.splitOn ',') segments ∧
        segments.flatMap (Segment.rung company) = cs ∧
        ∀ b ∈ segments, b.turns company →
          (rowAfter (.rounds s) (b.rung company))⁻¹ = rowAfter (.rounds s) (b.rung company)) ∧
    ∀ (name text : String) (stage : Stage) (classification : Classification)
      (statedTitle : Option String) (m : Method),
      Method.ofNotation name text stage classification statedTitle = .ok m →
      m.leadHead = rowAfter (.rounds m.stage) m.changes ∧
      ∃ segments, List.Forall₂ (ShowsSegment m.stage) (text.toList.splitOn ',') segments ∧
        segments.flatMap (Segment.rung (',' ∈ text.toList)) = m.changes ∧
        (∀ b, segments = [b] → b.mark = .reflected → m.leadsPerCourse ≤ 2) ∧
        ∀ a b, segments = [a, b] → a.turns true → b.turns true →
          let x := rowAfter (.rounds m.stage) (a.rung true)
          m.leadHead⁻¹ = x * m.leadHead * x⁻¹ := by
  refine ⟨fun s cs => ⟨?_, fun r => ?_⟩, fun s text cs reads => ?_, ?_⟩
  · rw [rowAfter_rounds, rowAfter_rounds, product_reverse]
  · rw [rowAfter_eq, rowAfter_eq, product_reverse, mul_inv_cancel_right]
  · obtain ⟨segments, shown, rung⟩ := parseLead_eq_ok_iff.1 reads
    refine ⟨segments, shown, rung, fun b _ turns => ?_⟩
    rw [rowAfter_rounds, Segment.inv_product_rung turns]
  · intro name text stage classification statedTitle m made
    obtain ⟨segments, shown, rung⟩ := exists_segments_of_ofNotation made
    refine ⟨m.leadHead_eq_rowAfter, segments, shown, rung, ?_, ?_⟩
    · rintro b rfl marked
      rw [List.flatMap_singleton] at rung
      exact leadsPerCourse_le_two (by simp [Segment.turns, marked]) rung
    · rintro a b rfl turns turns'
      -- two segments stand on two sides of a comma
      have comma : ',' ∈ text.toList := by
        rw [← length_splitOn_comma, shown.length_eq]
        exact Nat.one_lt_two
      rw [decide_eq_true comma, List.flatMap_cons, List.flatMap_singleton] at rung
      rw [rowAfter_rounds]
      exact inv_leadHead turns turns' rung

/-- At three bells: a method in one segment which is marked to turn, behind a blank, and one in two
segments, which turn because they have company. -/
theorem palindromes_undo_themselves_three_bells :
    let s : Stage := ⟨3, by decide, by decide⟩
    (∃ cs, parseLead s "-0,0-" = .ok cs ∧ ∃ a : Segment s, ShowsSegment s "-0".toList a ∧
      a.turns true ∧
      (rowAfter (.rounds s) (a.rung true))⁻¹ = rowAfter (.rounds s) (a.rung true)) ∧
    (∃ (m : Method) (b : Segment m.stage), Method.ofNotation "" " &-0" s {} none = .ok m ∧
      ShowsSegment m.stage " &-0".toList b ∧ b.rung false = m.changes ∧ b.mark = .reflected ∧
      m.leadsPerCourse ≤ 2) ∧
    ∃ (m : Method) (a b : Segment m.stage), Method.ofNotation "" "-0,0-" s {} none = .ok m ∧
      ShowsSegment m.stage "-0".toList a ∧ a.turns true ∧ b.turns true ∧
      m.leadHead = rowAfter (.rounds m.stage) (a.rung true ++ b.rung true) ∧
      let x := rowAfter (.rounds m.stage) (a.rung true)
      m.leadHead⁻¹ = x * m.leadHead * x⁻¹ := by
  intro s
  have one : " &-0".toList.splitOn ',' = [" &-0".toList] := rfl
  have two : "-0,0-".toList.splitOn ',' = ["-0".toList, "0-".toList] := rfl
  have marks : ∀ {t : Stage} {text : List Char} {b : Segment t}, ShowsSegment t text b →
      (markedBlock ⟨0, text⟩).mark = b.mark := fun h => (showsSegment_iff.1 h).1
  have inCompany : ∀ {t : Stage} {b : Segment t}, .unmarked = b.mark → b.turns true :=
    fun unmarked => by simp [Segment.turns, ← unmarked]
  obtain ⟨-, leads, methods⟩ := palindromes_undo_themselves
  refine ⟨?_, ?_, ?_⟩
  · obtain ⟨cs, reads⟩ : ∃ cs, parseLead s "-0,0-" = .ok cs := ⟨_, rfl⟩
    obtain ⟨segments, shown, -, undone⟩ := leads s _ cs reads
    rw [two, List.forall₂_cons_left_iff] at shown
    obtain ⟨a, rest, ha, -, rfl⟩ := shown
    have turns : a.turns true := inCompany (marks ha)
    exact ⟨cs, reads, a, ha, turns, undone a List.mem_cons_self turns⟩
  · obtain ⟨m, made⟩ : ∃ m, Method.ofNotation "" " &-0" s {} none = .ok m := ⟨_, rfl⟩
    obtain ⟨-, segments, shown, rung, single, -⟩ := methods _ _ _ _ _ _ made
    rw [one, List.forall₂_cons_left_iff] at shown
    obtain ⟨b, rest, hb, none, rfl⟩ := shown
    obtain rfl := List.forall₂_nil_left_iff.1 none
    have marked : b.mark = .reflected := (marks hb).symm
    rw [List.flatMap_singleton] at rung
    exact ⟨m, b, made, hb, rung, marked, single b rfl marked⟩
  · obtain ⟨m, made⟩ : ∃ m, Method.ofNotation "" "-0,0-" s {} none = .ok m := ⟨_, rfl⟩
    obtain ⟨head, segments, shown, rung, -, double⟩ := methods _ _ _ _ _ _ made
    rw [two, List.forall₂_cons_left_iff] at shown
    obtain ⟨a, rest, ha, shown, rfl⟩ := shown
    obtain ⟨b, rest, hb, none, rfl⟩ := List.forall₂_cons_left_iff.1 shown
    obtain rfl := List.forall₂_nil_left_iff.1 none
    have turns : a.turns true := inCompany (marks ha)
    have turns' : b.turns true := inCompany (marks hb)
    rw [List.flatMap_cons, List.flatMap_singleton] at rung
    exact ⟨m, a, b, made, ha, turns, turns', head.trans (congrArg _ rung.symm),
      double a b rfl turns turns'⟩

end Method

end Campanology
