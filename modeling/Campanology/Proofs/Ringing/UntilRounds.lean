import Mathlib.Data.Nat.Find
import Campanology.Proofs.Ringing.Leads

/-!
# Where ringing until rounds stops

Before each lead both caps are looked at: whether as many leads are rung as are allowed, and whether
the rows of another lead would be too many. After it the last row is looked at (`RingsToRounds`).
While only whole leads are rung, the caps allow another lead as long as fewer are rung than the
budget has (`mayGoOn_iff`), so that this is ringing within the budget (`ringsToRounds_iff`).

The row after `k` leads is the seed times the `k`-th power of the row to which one lead leads. So
ringing stops with the least `k` within the budget, not 0, for which that is rounds, and if there is
none it is given up when the budget is used up (`ring_stops_at_first_rounds`).
-/

namespace Campanology

open Change

variable {s : Stage}

namespace Touch

/-! ## Lead by lead -/

/-- Whether the caps allow another lead of so many rows. -/
def MayGoOn (c : Settings) (length : ℕ) (t : Touch s) : Prop :=
  t.leadEnds.size < c.maxLeads ∧ t.rows.size + length ≤ c.maxRows

/-- What comes of ringing until rounds, the caps being looked at before each lead and the last row
after it. -/
inductive RingsToRounds (c : Settings) (lead : List (Change s)) :
    Touch s → Except (Unclosed s) (Touch s) → Prop
  | capped {t : Touch s} (stop : ¬ t.MayGoOn c lead.length) :
    RingsToRounds c lead t (.error ⟨t.rows.size, t.leadEnds.size, t.last⟩)
  | closes {t : Touch s} (go : t.MayGoOn c lead.length)
    (rounds : (t.ringLead lead).last = Row.rounds s) :
    RingsToRounds c lead t (.ok (t.ringLead lead))
  | goesOn {t : Touch s} {r : Except (Unclosed s) (Touch s)} (go : t.MayGoOn c lead.length)
    (on : (t.ringLead lead).last ≠ Row.rounds s) (rest : RingsToRounds c lead (t.ringLead lead) r) :
    RingsToRounds c lead t r

/-- When whole leads are rung, another is allowed as long as the budget is not used up. -/
theorem mayGoOn_iff {c : Settings} {length : ℕ} (pos : 0 < length) {t : Touch s}
    (whole : t.rows.size = t.leadEnds.size * length) :
    t.MayGoOn c length ↔ t.leadEnds.size < c.leadBudget length := by
  rw [MayGoOn, Settings.leadBudget, Nat.lt_min, whole, ← Nat.succ_mul, ← Nat.le_div_iff_mul_le pos]
  rfl

variable {c : Settings} {lead : List (Change s)} (ne : lead ≠ [])

include ne

theorem size_leadEnds_ringLead (t : Touch s) :
    (t.ringLead lead).leadEnds.size = t.leadEnds.size + 1 :=
  size_leadEnds_ringLeads ne t 1

/-- A lead more leaves whole leads. -/
theorem whole_ringLead {t : Touch s} (whole : t.rows.size = t.leadEnds.size * lead.length) :
    (t.ringLead lead).rows.size = (t.ringLead lead).leadEnds.size * lead.length := by
  rw [size_leadEnds_ringLead ne, Nat.succ_mul, ← whole]
  simpa [ringLeads] using size_rows_ringLeads ne t 1

/-- While leads are left in the budget, one is rung, and the last row decides. -/
theorem ringToRounds_sub {budget : ℕ} {t : Touch s} (lt : t.leadEnds.size < budget) :
    t.ringToRounds lead (budget - t.leadEnds.size) =
      if (t.ringLead lead).last = Row.rounds s then .ok (t.ringLead lead)
      else (t.ringLead lead).ringToRounds lead (budget - (t.ringLead lead).leadEnds.size) := by
  have left : budget - t.leadEnds.size = budget - (t.leadEnds.size + 1) + 1 := by omega
  rw [left, ringToRounds, size_leadEnds_ringLead ne]
  simp only [Row.isRounds_iff, Row.rounds_eq_one]

theorem ringToRounds_of_ringsToRounds {t : Touch s} {r : Except (Unclosed s) (Touch s)}
    (h : RingsToRounds c lead t r) (whole : t.rows.size = t.leadEnds.size * lead.length) :
    t.ringToRounds lead (c.leadBudget lead.length - t.leadEnds.size) = r := by
  have pos := List.length_pos_iff.2 ne
  induction h with
  | capped stop =>
    rw [mayGoOn_iff pos whole] at stop
    rw [Nat.sub_eq_zero_of_le (Nat.le_of_not_lt stop), ringToRounds]
  | closes go rounds =>
    rw [ringToRounds_sub ne ((mayGoOn_iff pos whole).1 go), if_pos rounds]
  | goesOn go on _ ih =>
    rw [ringToRounds_sub ne ((mayGoOn_iff pos whole).1 go), if_neg on]
    exact ih (whole_ringLead ne whole)

theorem ringsToRounds_ringToRounds {t : Touch s}
    (whole : t.rows.size = t.leadEnds.size * lead.length) :
    RingsToRounds c lead t
      (t.ringToRounds lead (c.leadBudget lead.length - t.leadEnds.size)) := by
  have pos := List.length_pos_iff.2 ne
  -- on the leads that are left, each lead using up one of them
  induction hn : c.leadBudget lead.length - t.leadEnds.size generalizing t with
  | zero =>
    refine .capped ?_
    rw [mayGoOn_iff pos whole]
    omega
  | succ left ih =>
    have lt : t.leadEnds.size < c.leadBudget lead.length := by omega
    have rest := ih (whole_ringLead ne whole) (by rw [size_leadEnds_ringLead ne]; omega)
    have hrest : left = c.leadBudget lead.length - (t.ringLead lead).leadEnds.size := by
      rw [size_leadEnds_ringLead ne]
      omega
    rw [← hn, ringToRounds_sub ne lt, ← hrest]
    split
    · exact .closes ((mayGoOn_iff pos whole).2 lt) ‹_›
    · exact .goesOn ((mayGoOn_iff pos whole).2 lt) ‹_› rest

/-- Ringing lead by lead within the caps is ringing within the budget that they leave. -/
theorem ringsToRounds_iff {t : Touch s} (whole : t.rows.size = t.leadEnds.size * lead.length)
    {r : Except (Unclosed s) (Touch s)} :
    RingsToRounds c lead t r ↔
      t.ringToRounds lead (c.leadBudget lead.length - t.leadEnds.size) = r :=
  ⟨fun h => ringToRounds_of_ringsToRounds ne h whole,
    fun h => h ▸ ringsToRounds_ringToRounds ne whole⟩

end Touch

/-! ## Blocks -/

/-- The block that is handed over when the ringing comes to rounds, or the refusal. -/
def Touch.handOver (r : Except (Unclosed s) (Touch s)) : Except RingingFault (Staged Block) :=
  match r with
  | .ok t => .ok (.of t.block)
  | .error f => .error f.fault

/-- Ringing changes of the stage of the seed is refused only if it does not come to rounds. -/
theorem ring_map_of (seed : Row s) {lead : List (Change s)} (ne : lead ≠ [])
    (settings : Option Settings) :
    ring (.of seed) (lead.map .of) settings =
      ((ringing seed lead (settings.getD .standard)).mapError Unclosed.fault).map Staged.of := by
  have some : lead.map Staged.of ≠ [] := by simpa using ne
  have read := mapM_require_map_of lead "generate"
  unfold ring
  rw [if_neg some]
  simp only [Staged.of] at read ⊢
  rw [read]
  change (do
    let block ← (ringing seed lead (settings.getD .standard)).mapError Unclosed.fault
    return Staged.of block) = _
  cases ringing seed lead (settings.getD .standard) <;> rfl

theorem ring_of_untilRounds (seed : Row s) {lead : List (Change s)} (ne : lead ≠ [])
    {settings : Option Settings} (rule : (settings.getD .standard).rule = .untilRounds) :
    ring (.of seed) (lead.map .of) settings =
      Touch.handOver ((Touch.start seed).ringToRounds lead
        ((settings.getD .standard).leadBudget lead.length)) := by
  rw [ring_map_of seed ne, ringing, rule]
  simp only
  cases (Touch.start seed).ringToRounds lead ((settings.getD .standard).leadBudget lead.length) <;>
    rfl

/-- A number of leads can be rung. -/
theorem ringLeads_map_of (seed : Row s) {lead : List (Change s)} (ne : lead ≠ []) (count : ℕ) :
    ringLeads (.of seed) (lead.map .of) count = .ok (.of (ringingLeads seed lead count)) := by
  have counts : Settings.leads count = .ok
      ⟨.leadCount, none, some (count : ℤ), defaultMaxRows, defaultMaxLeads, nofun,
        fun _ => by simp [isCount], by decide, by decide⟩ := by
    simp [Settings.leads, Settings.make, isCount, defaultMaxRows, defaultMaxLeads]
  unfold ringLeads
  rw [counts]
  exact ring_map_of seed ne _

/-- **Ringing until rounds stops with the first lead that leads to rounds.** Ringing goes on lead by
lead, as long as neither cap forbids it, and comes to one end. If some number of leads, within the
budget and not 0, leads to rounds, then the least such number is rung; if none does, all leads of
the budget are rung, and the ringing is given up. -/
theorem ring_stops_at_first_rounds (seed : Row s) (lead : List (Change s)) (ne : lead ≠ [])
    (settings : Option Settings) (rule : (settings.getD .standard).rule = .untilRounds) :
    let caps := settings.getD .standard
    let budget := min caps.maxLeads (caps.maxRows / lead.length)
    let rung := ring (.of seed) (lead.map .of) settings
    (∃! r, Touch.RingsToRounds caps lead (.start seed) r) ∧
    (∀ r, Touch.RingsToRounds caps lead (.start seed) r → rung = Touch.handOver r) ∧
    ((∃ k, 0 < k ∧ k ≤ budget ∧ seed * product lead ^ k = Row.rounds s) →
      ∃ k, 0 < k ∧ k ≤ budget ∧ seed * product lead ^ k = Row.rounds s ∧
        (∀ i, 0 < i → i < k → seed * product lead ^ i ≠ Row.rounds s) ∧
        rung = .ok (.of (ringingLeads seed lead k)) ∧
        ringLeads (.of seed) (lead.map .of) k = .ok (.of (ringingLeads seed lead k))) ∧
    ((∀ k, 0 < k → k ≤ budget → seed * product lead ^ k ≠ Row.rounds s) →
      rung = .error (.doesNotClose (budget * lead.length) budget
        (.of (seed * product lead ^ budget)))) := by
  intro caps budget rung
  have rung_eq : rung = Touch.handOver ((Touch.start seed).ringToRounds lead budget) :=
    ring_of_untilRounds seed ne rule
  have run : ∀ r, Touch.RingsToRounds caps lead (.start seed) r ↔
      (Touch.start seed).ringToRounds lead budget = r := fun r =>
    Touch.ringsToRounds_iff ne (by simp [Touch.start])
  refine ⟨⟨_, (run _).2 rfl, fun r h => ((run r).1 h).symm⟩, fun r h => ?_, ?_, fun never => ?_⟩
  · rw [rung_eq, (run r).1 h]
  · intro closes
    obtain ⟨pos, le, rounds⟩ := Nat.find_spec closes
    have first : ∀ i, 0 < i → i < Nat.find closes → seed * product lead ^ i ≠ Row.rounds s :=
      fun i hi lt e => Nat.find_min closes lt ⟨hi, (lt.trans_le le).le, e⟩
    refine ⟨_, pos, le, rounds, first, ?_, ringLeads_map_of seed ne _⟩
    rw [rung_eq, Touch.ringToRounds_start_of_first ne pos le rounds first]
    rfl
  · rw [rung_eq, Touch.ringToRounds_start_of_never ne never]
    rfl

/-- Plain hunt at three bells, begun a lead before rounds and begun from backrounds, from which it
does not come to rounds, within five rows, which hold only two leads. -/
theorem ring_stops_at_first_rounds_three_bells :
    let s : Stage := ⟨3, by decide, by decide⟩
    let lead : List (Change s) := [.cross s, .ofPaired s (· = 0) (by decide)]
    let before : Row s := product lead ^ 2
    let back : Row s := .backrounds s
    let tight : Settings := .capped 5 9 (by decide) (by decide)
    lead ≠ [] ∧ tight.rule = .untilRounds ∧
      (∃ r, Touch.RingsToRounds tight lead (.start before) r ∧
        ring (.of before) (lead.map .of) (some tight) = Touch.handOver r) ∧
      (0 < 1 ∧ 1 ≤ 2 ∧ before * product lead ^ 1 = Row.rounds s ∧ ∃ k : ℕ, 0 < k ∧ k ≤ 2 ∧
        ring (.of before) (lead.map .of) (some tight) = ringLeads (.of before) (lead.map .of) k) ∧
      (∀ k, 0 < k → k ≤ 2 → back * product lead ^ k ≠ Row.rounds s) ∧
        ring (.of back) (lead.map .of) (some tight) =
          .error (.doesNotClose 4 2 (.of (back * product lead ^ 2))) := by
  intro s lead before back tight
  have ne : lead ≠ [] := List.cons_ne_nil _ _
  have budget : min tight.maxLeads (tight.maxRows / lead.length) = 2 := by decide
  have closes : before * product lead ^ 1 = Row.rounds s := by decide
  have never : ∀ k, 0 < k → k ≤ 2 → back * product lead ^ k ≠ Row.rounds s := by
    intro k pos le
    obtain rfl | rfl : k = 1 ∨ k = 2 := by omega
    · decide
    · decide
  obtain ⟨⟨r, hr, -⟩, rung, stops, -⟩ := ring_stops_at_first_rounds before lead ne (some tight) rfl
  obtain ⟨-, -, -, givenUp⟩ := ring_stops_at_first_rounds back lead ne (some tight) rfl
  rw [Option.getD_some, budget] at stops givenUp
  obtain ⟨k, pos, le, -, -, block, leads⟩ := stops ⟨1, by decide, by decide, closes⟩
  exact ⟨ne, rfl, ⟨r, hr, rung r hr⟩,
    ⟨by decide, by decide, closes, k, pos, le, block.trans leads.symm⟩, never, givenUp never⟩

end Campanology
