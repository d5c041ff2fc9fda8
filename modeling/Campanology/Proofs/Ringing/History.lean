import Mathlib.Data.List.Infix
import Campanology.Proofs.Ringing.Leads

/-!
# Touches under any requests

A touch may be asked at any time to make changes, to mark the end of a lead, or to stand. What comes
of a request is an answer or a refusal, and a touch (`Touch.perform`); after a history of requests
there is the touch that the last of them leaves (`Touch.after`).

Whatever is asked, only three things can happen to a touch: changes are made, the end of a lead with
rows is marked, or the ringers stand (`Touch.perform_cases`). So a touch is told by the leads that
are complete, none of them empty, and the changes made since (`Touch.Tells`), and how far it is can
be read off them (`Touch.tells_after`). From this follows what holds after any history
(`Touch.sound_after`). Once the ringers stand nothing happens any more
(`Touch.stood_refuses_changes_and_marks`), although they do not refuse to make no changes at all
(`Touch.stood_allows_no_changes`).
-/

namespace Campanology.Touch

open Change

variable {s : Stage}

/-! ## Requests -/

/-- What may be asked of a touch. -/
inductive Request
  | extend (c : Staged Change)
  | extendAll (cs : List (Staged Change))
  | markLead
  | stand

/-- What a touch answers. -/
inductive Answer (s : Stage)
  /-- The last row, after changes. -/
  | row (r : Row s)
  | marked
  | block (b : Block s)

/-- The answer to a request, or its refusal, and the touch after it. -/
def perform (t : Touch s) : Request → Except TouchFault (Answer s) × Touch s
  | .extend c =>
    match t.extend c with
    | .ok t => (.ok (.row t.last), t)
    | .error f => (.error f, t)
  | .extendAll cs =>
    match t.extendAll cs with
    | (none, t) => (.ok (.row t.last), t)
    | (some f, t) => (.error f, t)
  | .markLead =>
    match t.markLead with
    | .ok t => (.ok .marked, t)
    | .error f => (.error f, t)
  | .stand =>
    match t.stand with
    | .ok (b, t) => (.ok (.block b), t)
    | .error f => (.error f, t)

/-- The touch after a history of requests. -/
def after (t : Touch s) (history : List Request) : Touch s :=
  history.foldl (fun t request => (t.perform request).2) t

/-! ## What a request can do -/

theorem extend_eq_ok_iff {t t' : Touch s} {c : Staged Change} :
    t.extend c = .ok t' ↔ t.phase ≠ .stood ∧ ∃ d : Change s, c = .of d ∧ t' = t.ring d := by
  rw [extend]
  by_cases stood : t.phase = .stood
  · simp [stood]
  rw [if_neg stood]
  by_cases same : c.stage = s
  · obtain ⟨d, rfl⟩ := exists_of same
    rw [Staged.at?_of]
    simp [stood, Staged.of, eq_comm]
  · rw [Staged.at?_of_ne same]
    simp only [reduceCtorEq, false_iff, not_and, not_exists]
    rintro - d rfl
    exact absurd rfl same

theorem markLead_eq_ok_iff {t t' : Touch s} :
    t.markLead = .ok t' ↔ t.phase ≠ .stood ∧ ∃ h, t' = t.closeLead h := by
  rw [markLead]
  by_cases stood : t.phase = .stood
  · simp [stood]
  rw [if_neg stood]
  by_cases h : t.lastEnd < t.rows.size
  · simp [h, stood, eq_comm]
  · simp [h]

theorem stand_eq_ok_iff {t t' : Touch s} {b : Block s} :
    t.stand = .ok (b, t') ↔ t.phase ≠ .stood ∧ b = t.block ∧ t' = { t with phase := .stood } := by
  rw [stand]
  by_cases stood : t.phase = .stood
  · simp [stood]
  · simp [stood, eq_comm]

/-- Changes are made one after another up to the first that is refused. -/
theorem extendAll_cases (t : Touch s) (cs : List (Staged Change)) :
    (∃ t', cs.foldlM extend t = .ok t' ∧ t.extendAll cs = (none, t')) ∨
      ∃ made c rest t' f, cs = made ++ c :: rest ∧ made.foldlM extend t = .ok t' ∧
        t'.extend c = .error f ∧ t.extendAll cs = (some f, t') := by
  induction cs generalizing t with
  | nil => exact .inl ⟨t, rfl, rfl⟩
  | cons c cs ih =>
    cases h : t.extend c with
    | error f => exact .inr ⟨[], c, cs, t, f, rfl, rfl, h, by rw [extendAll, h]⟩
    | ok u =>
      have first : ∀ ds, (c :: ds).foldlM extend t = ds.foldlM extend u := fun ds => by
        rw [List.foldlM_cons, h]
        rfl
      have rest : t.extendAll (c :: cs) = u.extendAll cs := by rw [extendAll, h]
      rw [first, rest]
      rcases ih u with made | ⟨made, d, after, t', f, rfl, run, refused, e⟩
      · exact .inl made
      · exact .inr ⟨c :: made, d, after, t', f, rfl, (first made).trans run, refused, e⟩

theorem phase_ringAll (t : Touch s) (cs : List (Change s)) :
    (t.ringAll cs).phase = if cs = [] then t.phase else .insideLead := by
  induction cs generalizing t with
  | nil => rfl
  | cons c cs ih =>
    rw [ringAll_cons, ih]
    split <;> rfl

/-- Changes which are made all are of the stage. -/
theorem exists_ringAll_of_foldlM {t t' : Touch s} {cs : List (Staged Change)}
    (h : cs.foldlM extend t = .ok t') :
    ∃ ds, t' = t.ringAll ds ∧ (t.phase = .stood → ds = []) := by
  induction cs generalizing t with
  | nil => exact ⟨[], (Except.ok.inj h).symm, fun _ => rfl⟩
  | cons c cs ih =>
    rw [List.foldlM_cons] at h
    cases first : t.extend c with
    | error f =>
      rw [first] at h
      cases h
    | ok u =>
      rw [first] at h
      obtain ⟨isOpen, d, -, rfl⟩ := extend_eq_ok_iff.1 first
      obtain ⟨ds, e, -⟩ := ih h
      exact ⟨d :: ds, e, fun stood => absurd stood isOpen⟩

/-- **What can happen to a touch**: changes are made, the end of a lead is marked, or the ringers
stand; if they stand already, nothing happens. -/
theorem perform_cases (t : Touch s) (request : Request) :
    (∃ cs, (t.perform request).2 = t.ringAll cs ∧ (t.phase = .stood → cs = [])) ∨
      t.phase ≠ .stood ∧ ((∃ h, (t.perform request).2 = t.closeLead h) ∨
        (t.perform request).2 = { t with phase := .stood }) := by
  have nothing : ∃ cs, t = t.ringAll cs ∧ (t.phase = .stood → cs = []) := ⟨[], rfl, fun _ => rfl⟩
  cases request with
  | extend c =>
    left
    cases h : t.extend c with
    | error f => simpa only [perform, h] using nothing
    | ok t' =>
      obtain ⟨isOpen, d, -, rfl⟩ := extend_eq_ok_iff.1 h
      exact ⟨[d], by rw [perform, h]; rfl, fun stood => absurd stood isOpen⟩
  | extendAll cs =>
    left
    rcases t.extendAll_cases cs with ⟨t', run, e⟩ | ⟨made, c, rest, t', f, -, run, -, e⟩
    · simpa only [perform, e] using exists_ringAll_of_foldlM run
    · simpa only [perform, e] using exists_ringAll_of_foldlM run
  | markLead =>
    cases h : t.markLead with
    | error f => exact .inl (by simpa only [perform, h] using nothing)
    | ok t' =>
      obtain ⟨isOpen, marked, rfl⟩ := markLead_eq_ok_iff.1 h
      exact .inr ⟨isOpen, .inl ⟨marked, by rw [perform, h]⟩⟩
  | stand =>
    cases h : t.stand with
    | error f => exact .inl (by simpa only [perform, h] using nothing)
    | ok handed =>
      obtain ⟨b, t'⟩ := handed
      obtain ⟨isOpen, -, rfl⟩ := stand_eq_ok_iff.1 h
      exact .inr ⟨isOpen, .inr (by rw [perform, h])⟩

/-! ## Completed leads and the changes since -/

/-- How far a touch is, with these leads complete and these changes made since. -/
def phaseOf (leads : List (List (Change s))) (since : List (Change s)) : Phase :=
  if since ≠ [] then .insideLead else if leads ≠ [] then .leadEnd else .seed

/-- The offsets at which leads are complete that are rung one after another. -/
def endsOf (leads : List (List (Change s))) : List ℕ :=
  leads.inits.tail.map fun complete => complete.flatten.length

theorem endsOf_concat (leads : List (List (Change s))) (lead : List (Change s)) :
    endsOf (leads ++ [lead]) = endsOf leads ++ [leads.flatten.length + lead.length] := by
  have some : leads.inits ≠ [] := List.ne_nil_of_mem ((List.mem_inits [] leads).2 List.nil_prefix)
  rw [endsOf, List.inits_append, List.tail_append_of_ne_nil some, List.map_append]
  simp [endsOf]

/-- The touch began with the seed, the given leads are complete, and the given changes have been
made since. -/
structure Tells (t : Touch s) (seed : Row s) (leads : List (List (Change s)))
    (since : List (Change s)) : Prop where
  whole : ∀ lead ∈ leads, lead ≠ []
  rows : t.rows.toList = rung seed (leads.flatten ++ since)
  last : t.last = seed * product (leads.flatten ++ since)
  leadEnds : t.leadEnds.toList = endsOf leads
  phase : t.phase ≠ .stood → t.phase = phaseOf leads since

theorem tells_start (seed : Row s) : (start seed).Tells seed [] [] where
  whole := by simp
  rows := rfl
  last := by simp [start]
  leadEnds := rfl
  phase _ := rfl

namespace Tells

variable {t : Touch s} {seed : Row s} {leads : List (List (Change s))} {since : List (Change s)}

theorem size_rows (h : t.Tells seed leads since) :
    t.rows.size = leads.flatten.length + since.length := by
  rw [← Array.length_toList, h.rows, length_rung, List.length_append]

/-- The last lead ends with the last of the rows that the complete leads have. -/
theorem lastEnd (h : t.Tells seed leads since) : t.lastEnd = leads.flatten.length := by
  rw [lastEnd_eq, h.leadEnds]
  obtain rfl | ⟨before, lead, rfl⟩ := List.eq_nil_or_concat leads
  · rfl
  · rw [List.concat_eq_append, endsOf_concat, List.getLastD_concat]
    simp

/-- Changes add to those made since the last complete lead. -/
theorem ringAll (h : t.Tells seed leads since) (cs : List (Change s)) :
    (t.ringAll cs).Tells seed leads (since ++ cs) where
  whole := h.whole
  rows := by rw [toList_rows_ringAll, h.rows, h.last, ← rung_append, List.append_assoc]
  last := by rw [last_ringAll, h.last, mul_assoc, ← product_append, List.append_assoc]
  leadEnds := by rw [leadEnds_ringAll, h.leadEnds]
  phase := by
    rw [phase_ringAll]
    by_cases none : cs = []
    · simpa [none] using h.phase
    · simp [none, phaseOf]

/-- To mark the end of a lead makes the changes since the last one a complete lead. -/
theorem closeLead (h : t.Tells seed leads since) (rows : t.lastEnd < t.rows.size) :
    (t.closeLead rows).Tells seed (leads ++ [since]) [] where
  whole := by
    have some : since ≠ [] := by
      rw [h.lastEnd, h.size_rows] at rows
      exact List.length_pos_iff.1 (by omega)
    simpa [or_imp, forall_and, some] using h.whole
  rows := by
    rw [List.flatten_concat, List.append_nil]
    exact h.rows
  last := by
    rw [List.flatten_concat, List.append_nil]
    exact h.last
  leadEnds := by
    rw [Touch.closeLead, Array.toList_push, h.leadEnds, h.size_rows, endsOf_concat]
  phase _ := by simp [phaseOf, Touch.closeLead]

theorem stand (h : t.Tells seed leads since) :
    Tells { t with phase := .stood } seed leads since where
  whole := h.whole
  rows := h.rows
  last := h.last
  leadEnds := h.leadEnds
  phase isOpen := absurd rfl isOpen

/-- Whatever is asked, the touch is told by complete leads and changes since. -/
theorem perform (h : t.Tells seed leads since) (request : Request) :
    ∃ leads since, (t.perform request).2.Tells seed leads since := by
  rcases t.perform_cases request with ⟨cs, e, -⟩ | ⟨-, ⟨rows, e⟩ | e⟩
  · exact ⟨leads, since ++ cs, e ▸ h.ringAll cs⟩
  · exact ⟨leads ++ [since], [], e ▸ h.closeLead rows⟩
  · exact ⟨leads, since, e ▸ h.stand⟩

/-! ## How far the touch is -/

variable (h : t.Tells seed leads since)

include h

theorem length_flatten_eq_zero_iff : leads.flatten.length = 0 ↔ leads = [] := by
  rw [List.length_eq_zero_iff, List.flatten_eq_nil_iff]
  constructor
  · intro empty
    exact List.eq_nil_iff_forall_not_mem.2 fun lead hl => h.whole lead hl (empty lead hl)
  · rintro rfl
    simp

/-- Nothing but the seed is there if there are no rows. -/
theorem phaseOf_eq_seed_iff : phaseOf leads since = .seed ↔ t.rows.size = 0 := by
  rw [h.size_rows, Nat.add_eq_zero_iff, h.length_flatten_eq_zero_iff, List.length_eq_zero_iff,
    phaseOf]
  by_cases since = [] <;> by_cases leads = [] <;> simp [*]

/-- A lead has just been completed if the last one ends with the last row. -/
theorem phaseOf_eq_leadEnd_iff :
    phaseOf leads since = .leadEnd ↔ t.leadEnds.back? = some t.rows.size := by
  rw [← Array.getLast?_toList, h.leadEnds, h.size_rows, phaseOf]
  obtain rfl | ⟨before, lead, rfl⟩ := List.eq_nil_or_concat leads
  · by_cases since = [] <;> simp [*, endsOf]
  · by_cases none : since = []
    · simp [none, List.concat_eq_append, endsOf_concat]
    · have pos := List.length_pos_iff.2 none
      simp [none, List.concat_eq_append, endsOf_concat]

/-- A lead is under way if there are rows after the last end. -/
theorem phaseOf_eq_insideLead_iff :
    phaseOf leads since = .insideLead ↔ t.lastEnd < t.rows.size := by
  rw [h.lastEnd, h.size_rows, Nat.lt_add_right_iff_pos, List.length_pos_iff, phaseOf]
  by_cases since = [] <;> by_cases leads = [] <;> simp [*]

end Tells

/-- After any history a touch is told by complete leads and changes since. -/
theorem tells_after {t : Touch s} {seed : Row s} {leads : List (List (Change s))}
    {since : List (Change s)} (h : t.Tells seed leads since) (history : List Request) :
    ∃ leads since, (t.after history).Tells seed leads since := by
  induction history generalizing t leads since with
  | nil => exact ⟨leads, since, h⟩
  | cons request history ih =>
    obtain ⟨leads, since, h⟩ := h.perform request
    exact ih h

/-! ## Touches after a history -/

/-- Of what is refused, only a run of changes may change the touch. -/
theorem perform_of_error {t : Touch s} {request : Request} {f : TouchFault}
    (single : ∀ cs, request ≠ .extendAll cs) (refused : (t.perform request).1 = .error f) :
    (t.perform request).2 = t := by
  cases request with
  | extend c => cases h : t.extend c <;> simp_all [perform]
  | extendAll cs => exact absurd rfl (single cs)
  | markLead => cases h : t.markLead <;> simp_all [perform]
  | stand => cases h : t.stand <;> simp_all [perform]

/-- A run of changes that is refused leaves what the changes before the refused one leave. -/
theorem perform_extendAll_of_error {t : Touch s} {cs : List (Staged Change)} {f : TouchFault}
    (refused : (t.perform (.extendAll cs)).1 = .error f) :
    ∃ made c rest t', cs = made ++ c :: rest ∧ made.foldlM extend t = .ok t' ∧
      t'.extend c = .error f ∧ (t.perform (.extendAll cs)).2 = t' := by
  rcases t.extendAll_cases cs with ⟨t', -, e⟩ | ⟨made, c, rest, t', f', split, run, stopped, e⟩
  · rw [perform, e] at refused
    cases refused
  · rw [perform, e] at refused ⊢
    cases refused
    exact ⟨made, c, rest, t', split, run, stopped, rfl⟩

/-- To stand hands over the block that the rows and lead ends make, which are as a block must have
them. -/
theorem perform_stand {t : Touch s} (isOpen : t.phase ≠ .stood) :
    t.perform .stand = (.ok (.block t.block), { t with phase := .stood }) ∧
      Block.ofRows s (t.rows.toList.map .of) (.of t.last) (t.leadEnds.toList.map Nat.cast) =
        .ok t.block := by
  refine ⟨?_, t.block.ofRows_self⟩
  rw [perform, stand_eq_ok_iff.2 ⟨isOpen, rfl, rfl⟩]

/-- **After any history a touch is sound.** Its lead ends ascend within its rows; it is told by
complete leads and the changes since. Unless the ringers stand, how far it is can be read off its
rows and lead ends, and it can be made to stand, which hands over the block of these. What is
refused changes nothing, but for a run of changes, of which those before the refused one are
made. -/
theorem sound_after (seed : Row s) (history : List Request) :
    let t := (start seed).after history
    (0 :: t.leadEnds.toList).Pairwise (· < ·) ∧ (∀ e ∈ t.leadEnds.toList, e ≤ t.rows.size) ∧
    (∃ leads since, t.Tells seed leads since) ∧
    (t.phase ≠ .stood →
      (t.phase = .seed ↔ t.rows.size = 0) ∧
      (t.phase = .leadEnd ↔ t.leadEnds.back? = some t.rows.size) ∧
      (t.phase = .insideLead ↔ t.lastEnd < t.rows.size) ∧
      ∃ b : Block s, t.perform .stand = (.ok (.block b), { t with phase := .stood }) ∧
        Block.ofRows s (t.rows.toList.map .of) (.of t.last) (t.leadEnds.toList.map Nat.cast) =
          .ok b ∧
        b.rows.length = t.rows.size ∧ b.rows = t.rows.toList ∧ b.leftover = t.last ∧
        b.leadEnds = t.leadEnds.toList) ∧
    (∀ request f, (∀ cs, request ≠ .extendAll cs) → (t.perform request).1 = .error f →
      (t.perform request).2 = t) ∧
    ∀ cs f, (t.perform (.extendAll cs)).1 = .error f →
      ∃ made c rest t', cs = made ++ c :: rest ∧ made.foldlM extend t = .ok t' ∧
        t'.extend c = .error f ∧ (t.perform (.extendAll cs)).2 = t' := by
  intro t
  obtain ⟨leads, since, h⟩ := tells_after (tells_start seed) history
  refine ⟨t.ascending, t.within, ⟨leads, since, h⟩, fun isOpen => ?_,
    fun request f => perform_of_error, fun cs f => perform_extendAll_of_error⟩
  obtain ⟨stands, made⟩ := perform_stand isOpen
  rw [h.phase isOpen]
  exact ⟨h.phaseOf_eq_seed_iff, h.phaseOf_eq_leadEnd_iff, h.phaseOf_eq_insideLead_iff, t.block,
    stands, made, Array.length_toList, rfl, rfl, rfl⟩

/-- At three bells, a mark before there are rows and a run of changes with one at four bells in it
are refused; the change before that one has been made and, marked, is a lead. -/
theorem sound_after_three_bells :
    let s : Stage := ⟨3, by decide, by decide⟩
    let cross : Staged Change := .of (.cross s)
    let other : Staged Change := .of (.cross ⟨4, by decide, by decide⟩)
    let history : List Request :=
      [.markLead, .extendAll [cross, other, cross], .markLead, .extend cross]
    let t := (start (Row.rounds s)).after history
    t.phase ≠ .stood ∧ t.phase = .insideLead ∧ t.lastEnd < t.rows.size ∧
      ((t.perform (.extend other)).1 = .error (.mismatch ⟨other.stage, s, "apply"⟩) ∧
        (t.perform (.extend other)).2 = t) ∧
      ∃ b : Block s, t.perform .stand = (.ok (.block b), { t with phase := .stood }) ∧
        b.rows = [.rounds s, product [.cross s]] ∧ b.leftover = .rounds s ∧ b.leadEnds = [1] := by
  intro s cross other history t
  obtain ⟨-, -, -, far, refusals, -⟩ := sound_after (Row.rounds s) history
  have isOpen : t.phase ≠ .stood := by decide +kernel
  have refused : (t.perform (.extend other)).1 = .error (.mismatch ⟨other.stage, s, "apply"⟩) := rfl
  obtain ⟨-, -, inside, b, stands, -, -, rows, leftover, ends⟩ := far isOpen
  have rows_lt : t.lastEnd < t.rows.size := by decide +kernel
  exact ⟨isOpen, inside.2 rows_lt, rows_lt,
    ⟨refused, refusals (.extend other) _ (fun _ => nofun) refused⟩, b, stands,
    rows.trans (by decide +kernel), leftover.trans (by decide +kernel),
    ends.trans (by decide +kernel)⟩

/-! ## Touches after the ringers stand -/

theorem perform_of_stood {t : Touch s} (stood : t.phase = .stood) {request : Request}
    (some : request ≠ .extendAll []) : t.perform request = (.error .stood, t) := by
  cases request with
  | extend c => simp [perform, extend, stood]
  | extendAll cs =>
    cases cs with
    | nil => exact absurd rfl some
    | cons c cs => simp [perform, extendAll, extend, stood]
  | markLead => simp [perform, markLead, stood]
  | stand => simp [perform, stand, stood]

/-- After the ringers stand, no history changes the touch. -/
theorem after_of_stood {t : Touch s} (stood : t.phase = .stood) (history : List Request) :
    t.after history = t := by
  induction history with
  | nil => rfl
  | cons request history ih =>
    have same : (t.perform request).2 = t := by
      by_cases none : request = .extendAll []
      · rw [none]
        rfl
      · rw [perform_of_stood stood none]
    rw [after, List.foldl_cons, same]
    exact ih

/-- **A touch which has been stood refuses changes and marks, and to be stood again**, after
whatever history, and nothing changes it any more. A run of no changes is no change: it is answered
with the last row. -/
theorem stood_refuses_changes_and_marks (t t' : Touch s) (b : Block s)
    (stands : t.stand = .ok (b, t')) (history : List Request) :
    let now := t'.after history
    now = t' ∧ now.phase = .stood ∧
    (∀ request, request ≠ .extendAll [] → now.perform request = (.error .stood, now)) ∧
    now.perform (.extendAll []) = (.ok (.row now.last), now) := by
  obtain ⟨-, -, rfl⟩ := stand_eq_ok_iff.1 stands
  intro now
  have same : now = { t with phase := .stood } := after_of_stood rfl history
  have stood : now.phase = .stood := by rw [same]
  exact ⟨same, stood, fun request some => perform_of_stood stood some, rfl⟩

/-- At three bells, stood at once and then asked for changes, for none, and to be stood again. -/
theorem stood_refuses_changes_and_marks_three_bells :
    let s : Stage := ⟨3, by decide, by decide⟩
    let cross : Staged Change := .of (.cross s)
    ∃ (b : Block s) (t' : Touch s), (start (Row.rounds s)).stand = .ok (b, t') ∧
      t'.after [.extend cross, .extendAll [], .stand] = t' ∧
      t'.perform (.extendAll [cross]) = (.error .stood, t') ∧
      t'.perform (.extendAll []) = (.ok (.row (.rounds s)), t') := by
  intro s cross
  have stands : (start (Row.rounds s)).stand = .ok (_, _) := rfl
  obtain ⟨same, -, refuses, allows⟩ := stood_refuses_changes_and_marks _ _ _ stands
    [.extend cross, .extendAll [], .stand]
  rw [same] at refuses allows
  exact ⟨_, _, stands, same, refuses (.extendAll [cross]) (by simp), allows⟩

/-- Ringers who stand do not refuse a run of no changes. -/
theorem stood_allows_no_changes :
    let s : Stage := ⟨3, by decide, by decide⟩
    ¬ ∀ (t t' : Touch s) (b : Block s), t.stand = .ok (b, t') →
      ∀ request, (t'.perform request).1 = .error .stood := by
  intro s refuses
  have refused := refuses (start (Row.rounds s)) _ _ rfl (.extendAll [])
  cases refused

end Campanology.Touch
