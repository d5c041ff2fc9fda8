import Campanology.Method.Basic
import Campanology.Proofs.Change.Places
import Campanology.Proofs.Change.Rendering

/-!
# Reading what is written

The writing of a change is parsed to it (`parse_text`): the symbols of the places it makes are no
cross symbols, since `X` is one only where there is no place of that symbol, and the places tell the
change.

The writing of a lead leaves out what it can: there are dots between two changes with places only,
and no mark. It is still the writing of one segment (`renderSegments_canonical`), as two changes not
kept apart by a dot are kept apart by a cross, and so it is read as the lead
(`parseLead_renderLead`).
-/

namespace Campanology.Change

variable {s : Stage}

/-! ## One change -/

/-- The only cross symbol that is the symbol of a number is `X`. -/
theorem isCrossSymbol_ofNat {p : ℕ} (h : p < s.bells) :
    isCrossSymbol s (Symbol.ofNat p) = false := by
  have known : ∀ k : Fin 36, Symbol.ofNat k ≠ '-' ∧ Symbol.ofNat k ≠ 'x' ∧
      (Symbol.ofNat k = 'X' → k.val = crossPlace) := by decide
  obtain ⟨dash, small, capital⟩ := known ⟨p, h.trans_le s.le_max⟩
  rw [Bool.eq_false_iff]
  intro hcross
  simp only [isCrossSymbol, Bool.or_eq_true, Bool.and_eq_true, decide_eq_true_eq] at hcross
  rcases hcross with eq | ⟨eq | eq, small'⟩
  · exact dash eq
  · exact small eq
  · have : p = crossPlace := capital eq
    omega

theorem placeOf_ofNat {p : ℕ} (h : p < s.bells) : placeOf s (Symbol.ofNat p) = .ok p := by
  rw [placeOf, isCrossSymbol_ofNat h, Symbol.number?_ofNat (h.trans_le s.le_max)]
  simp [h]

/-- A change that is no cross makes places: if it made none, it would be the cross. -/
theorem places_ne_nil {c : Change s} (h : ¬ c.isCross = true) : c.places ≠ [] := by
  intro none
  have made := c.ofMade_places
  simp only [none, List.not_mem_nil, decide_false, ofMade_none] at made
  exact h (c.isCross_iff.2 (Except.ok.inj made).symm)

theorem parse_text (c : Change s) : parse s c.text = .ok c := by
  rw [text]
  split
  · rename_i hcross
    rw [c.isCross_iff.1 hcross]
    exact parse_cross rfl
  · rename_i hcross
    rw [parse, symbols, String.toList_ofList, ofToken_eq_ok_iff]
    refine .inr ⟨by simpa using places_ne_nil hcross, c.places, ?_, c.ofMade_places⟩
    rw [List.forall₂_map_left_iff, List.forall₂_same]
    exact fun p hp => placeOf_ofNat (c.lt_of_mem_places hp)

/-! ## A lead -/

/-- The changes of a lead as they are written after a change; `afterPlaces` tells whether that was
one with places in writing. -/
def writing : (afterPlaces : Bool) → List (Change s) → List (WrittenChange s)
  | _, [] => []
  | afterPlaces, c :: cs =>
    { gap := if afterPlaces && !c.isCross then ['.'] else []
      token := c.text.toList
      change := c
      separates := by
        split
        · exact List.forall_mem_singleton.2 rfl
        · simp
      parsed := by rw [String.ofList_toList, parse_text] } :: writing (!c.isCross) cs

theorem map_change_writing (afterPlaces : Bool) (cs : List (Change s)) :
    (writing afterPlaces cs).map WrittenChange.change = cs := by
  induction cs generalizing afterPlaces with
  | nil => rfl
  | cons c cs ih => rw [writing, List.map_cons, ih]

theorem flatMap_chars_writing (afterPlaces : Bool) (cs : List (Change s)) :
    (writing afterPlaces cs).flatMap WrittenChange.chars =
      (renderFrom afterPlaces (cs.map Staged.of)).toList := by
  induction cs generalizing afterPlaces with
  | nil => rfl
  | cons c cs ih =>
    rw [writing, List.flatMap_cons, ih, List.map_cons, Staged.of, renderFrom, WrittenChange.chars]
    by_cases hcross : c.isCross = true
    · simp [hcross]
    · cases afterPlaces <;> simp [hcross]

/-- Of two changes, either a cross keeps them apart or the dot before the second. -/
theorem isChain_writing (afterPlaces : Bool) (cs : List (Change s)) :
    (writing afterPlaces cs).IsChain WrittenChange.Apart := by
  induction cs generalizing afterPlaces with
  | nil => exact .nil
  | cons c cs ih =>
    rw [writing]
    refine List.isChain_cons.2 ⟨?_, ih _⟩
    cases cs with
    | nil => simp [writing]
    | cons d cs =>
      intro w hw
      obtain rfl := Option.some_inj.1 hw
      have isCross : ∀ e : Change s, e.isCross = true → ∃ x, e.text.toList = [x] ∧
          isCrossSymbol s x := fun e he => ⟨'-', by simp [text, he], rfl⟩
      by_cases hc : c.isCross = true
      · exact .inr (.inl (isCross c hc))
      by_cases hd : d.isCross = true
      · exact .inr (.inr (isCross d hd))
      · exact .inl (by simp [hc, hd])

/-- A lead as the library writes it: one segment with no mark. -/
def canonical (cs : List (Change s)) (ne : cs ≠ []) : WrittenSegment s where
  blanks := []
  mark := .unmarked
  written := writing false cs
  trail := []
  blank := by simp
  ne := by
    intro none
    have := map_change_writing false cs
    rw [none] at this
    exact ne this.symm
  apart := isChain_writing false cs
  separates := by simp

theorem renderSegments_canonical {cs : List (Change s)} (ne : cs ≠ []) :
    renderSegments [canonical cs ne] = renderLead cs := by
  rw [renderSegments, List.map_singleton, List.intercalate_singleton, WrittenSegment.chars]
  simp only [canonical, Mark.sign, List.nil_append, List.append_nil, flatMap_chars_writing,
    String.ofList_toList, renderLead, render]

/-- The writing of a lead is read as the lead. -/
theorem parseLead_renderLead {cs : List (Change s)} (ne : cs ≠ []) :
    parseLead s (renderLead cs) = .ok cs := by
  rw [← renderSegments_canonical ne, parseLead_renderSegments (List.cons_ne_nil _ _)]
  simp [Segment.rung, Segment.turns, WrittenSegment.segment, canonical, map_change_writing]

/-- Changes of any stages in writing are read as these, if they are of one stage. -/
theorem parseLead_render {ns : List (Staged Change)} (ne : ns ≠ []) (same : ∀ c ∈ ns, c.stage = s) :
    ∃ cs, parseLead s (render ns) = .ok cs ∧ cs.map .of = ns := by
  obtain ⟨cs, rfl⟩ := exists_map_of same
  exact ⟨cs, parseLead_renderLead (by simpa using ne), rfl⟩

/-- The method that is written is made again from its notation. -/
theorem ofNotation_notationText (m : Method) (name : String) (classification : Classification)
    (statedTitle : Option String) :
    Method.ofNotation name m.notationText m.stage classification statedTitle =
      .ok ⟨name, m.stage, m.changes, classification, statedTitle, m.changes_ne_nil⟩ := by
  have read : parseLead m.stage m.notationText = .ok m.changes :=
    parseLead_renderLead m.changes_ne_nil
  unfold Method.ofNotation
  split
  · rename_i lead hlead
    obtain rfl := Except.ok.inj (read.symm.trans hlead)
    rfl
  · rename_i fault hfault
    rw [read] at hfault
    cases hfault

/-- **What is written is read back.** Changes of one stage, of which there are some, are read from
their writing, so that different ones are written differently; a method has the changes that its
notation is read as; and a text that is read is written in a form which stays when it is read and
written again. -/
theorem parseLead_render_round_trip (s : Stage) :
    (∀ ns : List (Staged Change), ns ≠ [] → (∀ c ∈ ns, c.stage = s) →
      ∃ cs, parseLead s (render ns) = .ok cs ∧ cs.map .of = ns) ∧
    (∀ ns ns' : List (Staged Change), ns ≠ [] → ns' ≠ [] → (∀ c ∈ ns ++ ns', c.stage = s) →
      render ns = render ns' → ns = ns') ∧
    (∀ (m : Method) (name : String) (classification : Classification)
      (statedTitle : Option String),
      Method.ofNotation name m.notationText m.stage classification statedTitle =
        .ok ⟨name, m.stage, m.changes, classification, statedTitle, m.changes_ne_nil⟩) ∧
    (∀ text written : String, (parseLead s text).map renderLead = .ok written →
      (parseLead s written).map renderLead = .ok written) := by
  refine ⟨fun ns ne same => parseLead_render ne same, ?_, ofNotation_notationText, ?_⟩
  · intro ns ns' ne ne' same h
    rw [List.forall_mem_append] at same
    obtain ⟨cs, read, rfl⟩ := parseLead_render ne same.1
    obtain ⟨cs', read', rfl⟩ := parseLead_render ne' same.2
    rw [h, read'] at read
    rw [Except.ok.inj read]
  · intro text written h
    cases read : parseLead s text with
    | error fault =>
      rw [read] at h
      cases h
    | ok cs =>
      rw [read] at h
      obtain rfl : renderLead cs = written := Except.ok.inj h
      rw [parseLead_renderLead (parseLead_ne_nil read)]
      rfl

/-- At five bells, where the top place is made untold: a change that is told by its lowest places
is written as the one that is told by all. -/
theorem parseLead_render_round_trip_five_bells :
    let s : Stage := ⟨5, by decide, by decide⟩
    let told : Change s := ofPaired s (fun p => p ∈ [0, 1]) (by decide)
    let all : Change s := ofPaired s (fun p => p ∈ [0, 1, 4]) (by decide)
    let ns : List (Staged Change) := [.of told, .of told, .of (cross s)]
    let ns' : List (Staged Change) := [.of all, .of told, .of (cross s)]
    ns ≠ [] ∧ (∀ c ∈ ns, c.stage = s) ∧ render ns = "014.014-" ∧
      (∃ cs, parseLead s "014.014-" = .ok cs ∧ cs.map .of = ns) ∧
      render ns = render ns' ∧ ns = ns' ∧
      (parseLead s " &01.-").map renderLead = .ok "014-014" ∧
      (parseLead s "014-014").map renderLead = .ok "014-014" := by
  intro s told all ns ns'
  obtain ⟨read, injective, -, stays⟩ := parseLead_render_round_trip s
  have ne : ns ≠ [] := List.cons_ne_nil _ _
  have same : ∀ c ∈ ns, c.stage = s := by simp [ns, Staged.of]
  have text : render ns = "014.014-" := by decide +kernel
  have text' : render ns = render ns' := by decide +kernel
  have form : (parseLead s " &01.-").map renderLead = .ok "014-014" := by decide +kernel
  have back := read ns ne same
  rw [text] at back
  exact ⟨ne, same, text, back, text',
    injective ns ns' ne (List.cons_ne_nil _ _) (by simp [ns, ns', Staged.of]) text', form,
    stays _ _ form⟩

end Campanology.Change
