import Campanology.Proofs.Change.Runs
import Campanology.Proofs.Ringing.Strings

/-!
# Changes read off the rows

A change rearranges places, whichever bells are in them. So a row and the next have the same bell in
just the places that the change between them makes, and the change is told by these places
(`Change.takes_next`): it can be read off the two rows, from whatever row it was made.

What is asked of a touch adds to its rows those of the changes which are made, and of nothing else
(`Touch.perform_rings`). Hence the changes made in any history, one after another, are those that
are read off the rows, the last one included (`Touch.changes_read_off_rows`). A block which is rung
by repeating a lead comes of such a history, so that its lead can be read off it as well.
-/

namespace Campanology

variable {s : Stage}

namespace Change

/-! ## Two rows -/

/-- The places in which two rows have the same bell. -/
def agreements (r r' : Row s) : List ℕ :=
  ((List.finRange s.bells).filter fun p => r.bellAt p = r'.bellAt p).map Fin.val

/-- The change takes one row to another: just the places that it makes keep their bell, no bell
moves by more than one place, and the places that keep their bell tell the change. -/
structure Takes (c : Change s) (r r' : Row s) : Prop where
  keeps : ∀ p, r.bellAt p = r'.bellAt p ↔ p.val ∈ c.places
  near : ∀ b, (r'.placeOf b).val ≤ (r.placeOf b).val + 1 ∧
    (r.placeOf b).val ≤ (r'.placeOf b).val + 1
  told : ofPlaces s ((agreements r r').map Nat.cast) = .ok c

variable (c : Change s) (r : Row s)

theorem bellAt_next_eq_iff {p : Fin s.bells} :
    r.bellAt p = (c.next r).bellAt p ↔ c.row.bellAt p = p := by
  rw [next, Row.bellAt_mul, Row.bellAt_inj, eq_comm]

/-- A bell comes into a place from the one that the change names. -/
theorem placeOf_next (b : Fin s.bells) :
    r.placeOf b = c.row.bellAt ((c.next r).placeOf b) := by
  have rings := (c.next r).bellAt_placeOf b
  rw [next, Row.bellAt_mul] at rings
  rw [next, ← r.placeOf_bellAt (c.row.bellAt _), rings]

theorem agreements_next : agreements r (c.next r) = c.places := by
  simp only [agreements, bellAt_next_eq_iff, places]

theorem takes_next : c.Takes r (c.next r) where
  keeps p := by rw [bellAt_next_eq_iff, mem_places]
  near b := by
    have near := c.near ((c.next r).placeOf b)
    rw [c.placeOf_next r b]
    exact near.symm
  told := by rw [agreements_next, ofPlaces_places]

/-! ## Rows one after another -/

/-- The changes that the rows of a list tell, each with the next. -/
def readOff (rows : List (Row s)) : Except NotationFault (List (Change s)) :=
  (rows.zip rows.tail).mapM fun x => ofPlaces s ((agreements x.1 x.2).map Nat.cast)

/-- The changes take each row to the next, from the first to the last, and are read off the rows. -/
structure Link (cs : List (Change s)) (rows : List (Row s)) : Prop where
  length : rows.length = cs.length + 1
  takes : ∀ k c, cs[k]? = some c →
    ∃ r r', rows[k]? = some r ∧ rows[k + 1]? = some r' ∧ c.Takes r r'
  readOff : readOff rows = .ok cs

/-- The rows that changes lead through, from `r` to the one after the last change. -/
def through (r : Row s) (cs : List (Change s)) : List (Row s) := rung r cs ++ [r * product cs]

theorem through_cons (cs : List (Change s)) : through r (c :: cs) = r :: through (c.next r) cs := by
  rw [through, rung, product_cons, ← mul_assoc]
  rfl

theorem through_append (cs ds : List (Change s)) :
    through r (cs ++ ds) = rung r cs ++ through (r * product cs) ds := by
  rw [through, rung_append, product_append, ← mul_assoc, List.append_assoc]
  rfl

/-- Beginning with `r`, there is one row more than changes. -/
theorem exists_through (cs : List (Change s)) :
    ∃ rows, through r cs = r :: rows ∧ rows.length = cs.length := by
  cases cs with
  | nil => exact ⟨[], by simp [through, rung], rfl⟩
  | cons c cs => exact ⟨through (c.next r) cs, through_cons c r cs, by simp [through]⟩

/-- **Changes are read off the rows that they lead through.** -/
theorem link_through (cs : List (Change s)) : Link cs (through r cs) := by
  induction cs generalizing r with
  | nil => exact ⟨by simp [through], by simp, by simp [through, rung, readOff]; rfl⟩
  | cons c cs ih =>
    obtain ⟨length, takes, read⟩ := ih (c.next r)
    obtain ⟨rows, e, -⟩ := exists_through (c.next r) cs
    rw [through_cons]
    refine ⟨by simp [length], fun k d hd => ?_, ?_⟩
    · cases k with
      | zero =>
        obtain rfl : c = d := by simpa using hd
        exact ⟨r, c.next r, rfl, by rw [e]; rfl, c.takes_next r⟩
      | succ k => simpa using takes k d (by simpa using hd)
    · -- the first two rows tell the first change, the others tell the rest
      rw [e] at read ⊢
      rw [Change.readOff, List.tail_cons, List.zip_cons_cons, mapM_eq_ok_iff]
      exact .cons (c.takes_next r).told (mapM_eq_ok_iff.1 read)

end Change

open Change

namespace Touch

/-! ## The changes of a history -/

/-- The changes that a request asks for. -/
def Request.changes : Request → List (Staged Change)
  | .extend c => [c]
  | .extendAll cs => cs
  | .markLead => []
  | .stand => []

/-- The changes that are made in a history of requests. -/
def changesMade (t : Touch s) : List Request → List (Change s)
  | [] => []
  | request :: rest => t.made request.changes ++ (t.perform request).2.changesMade rest

/-- Each request of a history is answered when its turn comes. -/
def Answers (t : Touch s) : List Request → Prop
  | [] => True
  | request :: rest => (∃ a, (t.perform request).1 = .ok a) ∧ (t.perform request).2.Answers rest

/-- What is asked of a touch rings the changes that are made, and adds no other row. -/
theorem perform_rings (t : Touch s) (request : Request) :
    (t.perform request).2.rows = (t.ringAll (t.made request.changes)).rows ∧
      (t.perform request).2.last = (t.ringAll (t.made request.changes)).last := by
  cases request with
  | extend c =>
    cases h : t.extend c with
    | error f => simp only [perform, h, Request.changes, made_cons_of_error h]; exact ⟨rfl, rfl⟩
    | ok t' =>
      obtain ⟨isOpen, d, rfl, rfl⟩ := extend_eq_ok_iff.1 h
      simp only [perform, h, Request.changes, made_cons_of_ok isOpen]
      exact ⟨rfl, rfl⟩
  | extendAll cs =>
    have rings := t.extendAll_made cs
    rcases e : t.extendAll cs with ⟨_ | f, t'⟩ <;> rw [e] at rings <;>
      simp only [perform, e, Request.changes, ← rings, and_self]
  | markLead =>
    cases h : t.markLead with
    | error f => simp only [perform, h]; exact ⟨rfl, rfl⟩
    | ok t' =>
      obtain ⟨-, marked, rfl⟩ := markLead_eq_ok_iff.1 h
      simp only [perform, h]
      exact ⟨rfl, rfl⟩
  | stand =>
    cases h : t.stand with
    | error f => simp only [perform, h]; exact ⟨rfl, rfl⟩
    | ok handed =>
      obtain ⟨b, t'⟩ := handed
      obtain ⟨-, -, rfl⟩ := stand_eq_ok_iff.1 h
      simp only [perform, h]
      exact ⟨rfl, rfl⟩

/-- If none is refused, all changes are made. -/
theorem map_made_of_extendAll (t : Touch s) (cs : List (Staged Change))
    (ok : (t.extendAll cs).1 = none) : (t.made cs).map .of = cs := by
  induction cs generalizing t with
  | nil => rfl
  | cons c cs ih =>
    rw [extendAll] at ok
    cases h : t.extend c with
    | error f =>
      rw [h] at ok
      cases ok
    | ok t' =>
      rw [h] at ok
      obtain ⟨isOpen, d, rfl, rfl⟩ := extend_eq_ok_iff.1 h
      rw [made_cons_of_ok isOpen, List.map_cons, ih _ ok]

/-- If a request is answered, all changes it asks for are made. -/
theorem made_of_answer {t : Touch s} {request : Request} {a : Answer s}
    (ok : (t.perform request).1 = .ok a) : (t.made request.changes).map .of = request.changes := by
  cases request with
  | extend c =>
    cases h : t.extend c with
    | error f => simp [perform, h] at ok
    | ok t' =>
      obtain ⟨isOpen, d, rfl, rfl⟩ := extend_eq_ok_iff.1 h
      rw [Request.changes, made_cons_of_ok isOpen]
      rfl
  | extendAll cs =>
    refine t.map_made_of_extendAll cs ?_
    rcases e : t.extendAll cs with ⟨_ | f, t'⟩
    · rfl
    · simp [perform, e] at ok
  | markLead => rfl
  | stand => rfl

theorem allRows_ringAll (t : Touch s) (cs : List (Change s)) :
    (t.ringAll cs).allRows = t.rows.toList ++ through t.last cs := by
  rw [allRows, toList_rows_ringAll, last_ringAll, List.append_assoc]
  rfl

/-- The rows after a history are those that its changes lead through. -/
theorem allRows_after (t : Touch s) (history : List Request) :
    (t.after history).allRows = t.rows.toList ++ through t.last (t.changesMade history) := by
  induction history generalizing t with
  | nil => simp [after, changesMade, allRows, through, rung]
  | cons request rest ih =>
    obtain ⟨rows, last⟩ := t.perform_rings request
    rw [after, List.foldl_cons, ← after, ih, rows, last, changesMade, through_append,
      toList_rows_ringAll, last_ringAll, List.append_assoc]

theorem changesMade_of_answers {t : Touch s} {history : List Request} (all : t.Answers history) :
    (t.changesMade history).map .of = history.flatMap Request.changes := by
  induction history generalizing t with
  | nil => rfl
  | cons request rest ih =>
    obtain ⟨⟨a, ok⟩, all⟩ := all
    rw [changesMade, List.map_append, List.flatMap_cons, made_of_answer ok, ih all]

/-! ## Repeated leads -/

theorem ringLead_rings (t : Touch s) (lead : List (Change s)) :
    (t.ringLead lead).rows = (t.ringAll lead).rows ∧
      (t.ringLead lead).last = (t.ringAll lead).last := by
  simp only [ringLead]
  split <;> exact ⟨rfl, rfl⟩

/-- To ring a number of leads makes their changes one after another. -/
theorem allRows_ringAll_ringLeads (t : Touch s) (lead rest : List (Change s)) (count : ℕ) :
    ((t.ringLeads lead count).ringAll rest).allRows =
      t.rows.toList ++ through t.last ((List.replicate count lead).flatten ++ rest) := by
  induction count generalizing t with
  | zero => exact t.allRows_ringAll rest
  | succ count ih =>
    obtain ⟨rows, last⟩ := t.ringLead_rings lead
    rw [ringLeads, ih, rows, last, List.replicate_succ, List.flatten_cons, List.append_assoc lead,
      through_append t.last lead, toList_rows_ringAll, last_ringAll, List.append_assoc]

end Touch

/-- A lead that is repeated goes on with its first change when it is done. -/
theorem getElem?_repeated {α : Type} {lead : List α} {part : ℕ} (le : part ≤ lead.length)
    (count : ℕ) {k : ℕ} (h : k < count * lead.length + part) :
    ((List.replicate count lead).flatten ++ lead.take part)[k]? = lead[k % lead.length]? := by
  induction count generalizing k with
  | zero =>
    rw [Nat.zero_mul, Nat.zero_add] at h
    rw [List.replicate_zero, List.flatten_nil, List.nil_append, List.getElem?_take_of_lt h,
      Nat.mod_eq_of_lt (h.trans_le le)]
  | succ count ih =>
    rw [List.replicate_succ, List.flatten_cons, List.append_assoc]
    rcases Nat.lt_or_ge k lead.length with within | beyond
    · rw [List.getElem?_append_left within, Nat.mod_eq_of_lt within]
    · rw [Nat.succ_mul] at h
      rw [List.getElem?_append_right beyond, ih (by omega), Nat.mod_eq_sub_mod beyond]

/-- A block is rung by repeating a lead, whatever the settings say. -/
theorem exists_through_ringing {seed : Row s} {lead : List (Change s)} (ne : lead ≠ [])
    {settings : Settings} {b : Block s} (h : ringing seed lead settings = .ok b) :
    ∃ cs : List (Change s), cs.length = b.rows.length ∧
      (∀ k < cs.length, cs[k]? = lead[k % lead.length]?) ∧ b.allRows = through seed cs := by
  obtain ⟨count, part, lt, rfl⟩ := exists_ringLeads_of_ringing ne h
  have length : ((List.replicate count lead).flatten ++ lead.take part).length =
      count * lead.length + part := by
    simp [lt.le]
  have rows : (((Touch.start seed).ringLeads lead count).ringAll (lead.take part)).allRows =
      through seed ((List.replicate count lead).flatten ++ lead.take part) :=
    (Touch.start seed).allRows_ringAll_ringLeads lead (lead.take part) count
  have link := link_through seed ((List.replicate count lead).flatten ++ lead.take part)
  rw [← rows] at link
  refine ⟨_, ?_, fun k hk => getElem?_repeated lt.le count (length ▸ hk), rows⟩
  exact Nat.succ_inj.1 (link.length.symm.trans (by simp [Touch.allRows, Touch.block]))

/-- The lead is read off the block. -/
theorem exists_link_ringing {seed : Row s} {lead : List (Change s)} (ne : lead ≠ [])
    {settings : Settings} {b : Block s} (h : ringing seed lead settings = .ok b) :
    ∃ cs : List (Change s), cs.length = b.rows.length ∧
      (∀ k < cs.length, cs[k]? = lead[k % lead.length]?) ∧ Link cs b.allRows := by
  obtain ⟨cs, length, again, rows⟩ := exists_through_ringing ne h
  exact ⟨cs, length, again, rows ▸ link_through seed cs⟩

theorem exists_of_ring {seed : Row s} {changes : List (Staged Change)} {settings : Option Settings}
    {x : Staged Block} (h : ring (.of seed) changes settings = .ok x) :
    ∃ (lead : List (Change s)) (b : Block s), lead ≠ [] ∧ changes = lead.map .of ∧ x = .of b ∧
      ringing seed lead (settings.getD .standard) = .ok b := by
  unfold ring at h
  by_cases none : changes = []
  · rw [if_pos none] at h
    cases h
  rw [if_neg none] at h
  obtain ⟨lead, read, rings⟩ := bind_eq_ok_iff.1 h
  obtain ⟨b, rung, made⟩ := bind_eq_ok_iff.1 rings
  obtain rfl := Except.ok.inj made
  obtain rfl := mapM_require_eq_ok_iff.1 (mapError_eq_ok_iff.1 read)
  exact ⟨lead, b, fun nil => none (congrArg _ nil), rfl, rfl, mapError_eq_ok_iff.1 rung⟩

/-! ## Histories and blocks -/

/-- **The changes that are made can be read off the rows**, from whatever row they begin. After any
history of requests there is one row more than changes were made; each change takes its row to the
next, the last row included, in that just the places it makes keep their bell, no bell moves by more
than one place, and the places that keep their bell tell the change. If no request is refused, these
are all the changes that were asked for. The block that is handed over has these rows, and a block
rung by repeating a lead has rows off which the lead is read over and over. -/
theorem Touch.changes_read_off_rows (seed : Row s) (history : List Touch.Request) :
    let t := (start seed).after history
    let cs := (start seed).changesMade history
    t.allRows.head? = some seed ∧ Link cs t.allRows ∧
    ((start seed).Answers history → cs.map .of = history.flatMap Request.changes) ∧
    (∀ b, (t.perform .stand).1 = .ok (.block b) → b.allRows = t.allRows) ∧
    ∀ changes settings x, Campanology.ring (.of seed) changes settings = .ok x →
      ∃ (lead : List (Change s)) (b : Block s) (cs : List (Change s)),
        changes = lead.map .of ∧ x = .of b ∧ cs.length = b.rows.length ∧
        (∀ k < cs.length, cs[k]? = lead[k % lead.length]?) ∧ Link cs b.allRows := by
  intro t cs
  have rows : t.allRows = through seed cs := (start seed).allRows_after history
  obtain ⟨rest, first, -⟩ := exists_through seed cs
  refine ⟨by rw [rows, first]; rfl, rows ▸ link_through seed cs, changesMade_of_answers,
    fun b stands => ?_, fun changes settings x rung => ?_⟩
  · by_cases stood : t.phase = .stood
    · rw [perform_of_stood stood (by simp)] at stands
      cases stands
    · rw [(perform_stand stood).1] at stands
      cases stands
      rfl
  · obtain ⟨lead, b, ne, e, e', rung⟩ := exists_of_ring rung
    obtain ⟨cs, link⟩ := exists_link_ringing ne rung
    exact ⟨lead, b, cs, e, e', link⟩

/-- At four bells from a row which does not undo itself: three changes with a lead end between them,
and three rows rung by repeating a lead of two changes. -/
theorem Touch.changes_read_off_rows_four_bells :
    let s : Stage := ⟨4, by decide, by decide⟩
    let cross : Change s := .cross s
    let ends : Change s := .ofPaired s (fun p => p = 0 || p = 3) (by decide)
    let seed : Row s := product [cross, ends]
    let history : List Touch.Request :=
      [.extend (.of cross), .markLead, .extendAll [.of ends, .of cross]]
    let t := (start seed).after history
    let settings : Settings :=
      ⟨.rowCount, some 3, none, 9, 9, by decide, nofun, by decide, by decide⟩
    (start seed).Answers history ∧ readOff t.allRows = .ok [cross, ends, cross] ∧
      (∃ b, (t.perform .stand).1 = .ok (.block b) ∧ b.allRows = t.allRows) ∧
      ∃ b cs, Campanology.ring (.of seed) [.of cross, .of ends] (some settings) = .ok (.of b) ∧
        readOff b.allRows = .ok cs ∧ cs[2]? = some cross := by
  intro s cross ends seed history t settings
  obtain ⟨-, link, all, hands, repeated⟩ := changes_read_off_rows seed history
  have answers : (start seed).Answers history := ⟨⟨_, rfl⟩, ⟨_, rfl⟩, ⟨_, rfl⟩, trivial⟩
  have made : (start seed).changesMade history = [cross, ends, cross] :=
    List.map_injective_iff.2 staged_of_injective (all answers)
  have stands : (t.perform .stand).1 = .ok (.block t.block) := rfl
  have rung : Campanology.ring (.of seed) [.of cross, .of ends] (some settings) =
      .ok (.of (((start seed).ringLeads [cross, ends] 1).ringAll [cross]).block) := by
    refine (ring_map_of seed (List.cons_ne_nil cross [ends]) (some settings)).trans ?_
    simp [ringing, settings, Except.mapError, Except.map]
  obtain ⟨lead, b, cs, e, e', length, again, link'⟩ := repeated _ _ _ rung
  cases e'
  have three : cs.length = 3 := length
  have third : lead[0]? = some cross := by
    cases lead with
    | nil => cases e
    | cons c lead =>
      obtain rfl : cross = c := staged_of_injective (List.cons.inj e).1
      rfl
  have two : lead.length = 2 := by simpa using (congrArg List.length e).symm
  refine ⟨answers, made ▸ link.readOff, ⟨_, stands, hands _ stands⟩, _, cs, rung, link'.readOff, ?_⟩
  rw [again 2 (by omega), two]
  exact third

end Campanology
