import Campanology.Change.Parser
import Campanology.Proofs.Refusals

/-!
# What a token shows

Whether a token shows a change, and which, depends on its characters alone: the text around it and
its offset are for the refusals (`ofToken_eq_ok_iff`, `ofToken_eq_ok_iff_parse`). A token that shows
a change is a cross symbol by itself, or consists of the symbols of places, so that every character
in it is a cross or has a number (`number?_of_parse`).
-/

namespace Campanology.Change

variable {s : Stage}

/-! ## Places -/

/-- Symbols are read as places if and only if each of them is one. -/
theorem placesFrom_eq_ok_iff {text token : String} {index : ℕ} {w : List Char} {places : List ℕ} :
    placesFrom s text token index w = .ok places ↔
      List.Forall₂ (fun c p => placeOf s c = .ok p) w places := by
  induction w generalizing index places with
  | nil => simp [placesFrom, eq_comm]
  | cons c w ih =>
    rw [placesFrom, List.forall₂_cons_left_iff]
    cases hc : placeOf s c with
    | error reason => simp
    | ok p =>
      simp only [bind_eq_ok_iff, ih, Except.ok.injEq]
      constructor
      · rintro ⟨rest, hw, h⟩
        exact ⟨p, rest, rfl, hw, (Except.ok.inj h).symm⟩
      · rintro ⟨_, rest, rfl, hw, rfl⟩
        exact ⟨rest, hw, rfl⟩

theorem number?_of_placeOf {c : Char} {p : ℕ} (h : placeOf s c = .ok p) :
    Symbol.number? c = some p := by
  unfold placeOf at h
  split at h
  · cases h
  split at h
  · cases h
  rename_i n hn
  split at h
  · cases h
    exact hn
  · cases h

theorem placeOf_cross {c : Char} (h : isCrossSymbol s c) (p : ℕ) : placeOf s c ≠ .ok p := by
  simp [placeOf, h]

/-! ## Tokens -/

/-- A token shows the cross by a cross symbol, or else a change by symbols of places of which it is
made. -/
theorem ofToken_eq_ok_iff {text : String} {offset : ℕ} {w : List Char} {c : Change s} :
    ofToken s text offset w = .ok c ↔
      (∃ x, w = [x] ∧ isCrossSymbol s x ∧ c = cross s) ∨
        (w ≠ [] ∧ ∃ places, List.Forall₂ (fun x p => placeOf s x = .ok p) w places ∧
          ofMade s (fun p => p ∈ places) = .ok c) := by
  cases w with
  | nil => simp [ofToken]
  | cons x w =>
    unfold ofToken
    simp only
    split
    · rename_i hx
      obtain ⟨rfl, hx⟩ := hx
      constructor
      · intro h
        exact .inl ⟨x, rfl, hx, (Except.ok.inj h).symm⟩
      · rintro (⟨_, -, -, rfl⟩ | ⟨-, places, hp, -⟩)
        · rfl
        · cases hp with
          | cons hp _ => exact absurd hp (placeOf_cross hx _)
    · rename_i hx
      rw [bind_eq_ok_iff]
      constructor
      · rintro ⟨places, hp, h⟩
        refine .inr ⟨List.cons_ne_nil _ _, places, placesFrom_eq_ok_iff.1 hp, ?_⟩
        split at h
        · cases h
          assumption
        · cases h
      · rintro (⟨y, hw, hy, -⟩ | ⟨-, places, hp, hc⟩)
        · cases hw
          exact absurd ⟨rfl, hy⟩ hx
        · refine ⟨places, placesFrom_eq_ok_iff.2 hp, ?_⟩
          rw [hc]
          rfl

/-- The change a token shows is the one it shows as a text by itself. -/
theorem ofToken_eq_ok_iff_parse {text : String} {offset : ℕ} {w : List Char} {c : Change s} :
    ofToken s text offset w = .ok c ↔ parse s (String.ofList w) = .ok c := by
  rw [parse, String.toList_ofList, ofToken_eq_ok_iff, ofToken_eq_ok_iff]

theorem parse_cross {x : Char} (h : isCrossSymbol s x) :
    parse s (String.ofList [x]) = .ok (cross s) := by
  rw [parse, String.toList_ofList, ofToken_eq_ok_iff]
  exact .inl ⟨x, rfl, h, rfl⟩

theorem ne_nil_of_parse {w : List Char} {c : Change s} (h : parse s (String.ofList w) = .ok c) :
    w ≠ [] := by
  rintro rfl
  cases h

/-- A token that shows a change is a cross symbol, or has symbols of places only. -/
theorem number?_of_parse {w : List Char} {c : Change s} (h : parse s (String.ofList w) = .ok c) :
    (∃ x, w = [x] ∧ isCrossSymbol s x ∧ c = cross s) ∨
      ∀ x ∈ w, isCrossSymbol s x = false ∧ (Symbol.number? x).isSome := by
  rw [parse, String.toList_ofList, ofToken_eq_ok_iff] at h
  rcases h with cross | ⟨-, places, hp, -⟩
  · exact .inl cross
  right
  induction hp with
  | nil => simp
  | @cons y p w places hy _ ih =>
    rw [List.forall_mem_cons]
    refine ⟨⟨?_, ?_⟩, ih⟩
    · rw [Bool.eq_false_iff]
      intro hc
      exact placeOf_cross hc p hy
    · rw [number?_of_placeOf hy]
      rfl

end Campanology.Change
