import Campanology.Proofs.Change.RoundTrip
import Campanology.Proofs.Change.Runs

/-!
# The change that a text denotes

A text is one change if it is a cross symbol by itself, or if each symbol of it is that of a place
(`Spells`) and these places leave the others in pairs (`exists_parse_iff`). Either way it tells
places, the cross none (`Tells`), and denotes the change that is made of them
(`Tells.parse_eq_ok_iff`). Where the places spelled make no change, the text is refused for the same
reason as the places are (`Spells.parse_eq`), and places are told alike by numbers and by symbols
(`parse_symbols`).

The places that a change makes are those told, and the top place of an odd stage if it is left over
(`mem_madeBy`). Since they tell the change, two texts denote the same change just if they make the
same places (`eq_iff_madeBy_eq`). As places are told by a symbol and its capital alike, nothing
depends on the order of the symbols in a text, on how often they are repeated, or on which of them
are capitals (`eq_of_sameCapitals`).
-/

namespace Campanology

namespace Change

variable {s : Stage}

/-! ## Symbols of places -/

theorem placeOf_eq_ok_iff {x : Char} {p : ℕ} : placeOf s x = .ok p ↔
    isCrossSymbol s x = false ∧ x.toUpper = Symbol.ofNat p ∧ p < s.bells := by
  have number : Symbol.number? x = some p ∧ p < s.bells ↔
      x.toUpper = Symbol.ofNat p ∧ p < s.bells := by
    rw [Symbol.number?_eq_some_iff]
    exact ⟨fun h => ⟨h.1.2, h.2⟩, fun h => ⟨⟨h.2.trans_le s.le_max, h.1⟩, h.2⟩⟩
  rw [← number, placeOf]
  cases isCrossSymbol s x with
  | true => simp
  | false =>
    cases Symbol.number? x with
    | none => simp
    | some q =>
      by_cases inside : q < s.bells
      · simpa [inside] using fun eq : q = p => eq ▸ inside
      · simpa [inside] using fun eq : q = p => eq ▸ not_lt.1 inside

/-- Whether a symbol is a cross is told by its capital. -/
theorem isCrossSymbol_iff {x : Char} : isCrossSymbol s x = true ↔
    x.toUpper = '-' ∨ x.toUpper = 'X' ∧ s.bells ≤ crossPlace := by
  have dash : x.toUpper = '-' ↔ x = '-' := by
    rw [← Char.toNat_inj, ← Char.toNat_inj, Symbol.toNat_toUpper]
    change _ = 45 ↔ _ = 45
    split <;> omega
  have capital : x.toUpper = 'X' ↔ x = 'x' ∨ x = 'X' := by
    rw [← Char.toNat_inj, ← Char.toNat_inj, ← Char.toNat_inj, Symbol.toNat_toUpper]
    change _ = 88 ↔ _ = 120 ∨ _ = 88
    split <;> omega
  rw [dash, capital]
  simp [isCrossSymbol]

theorem isCrossSymbol_congr {x y : Char} (h : x.toUpper = y.toUpper) :
    isCrossSymbol s x = isCrossSymbol s y := by
  rw [Bool.eq_iff_iff, isCrossSymbol_iff, isCrossSymbol_iff, h]

/-! ## Texts that spell places -/

/-- The text spells the given places: it has symbols, none of them a cross, and as capitals they are
the symbols of these places of the stage. -/
structure Spells (s : Stage) (w : List Char) (places : List ℕ) : Prop where
  ne : w ≠ []
  noCross : ∀ x ∈ w, isCrossSymbol s x = false
  capitals : w.map Char.toUpper = places.map Symbol.ofNat
  inside : ∀ p ∈ places, p < s.bells

theorem forall₂_placeOf_iff {w : List Char} {places : List ℕ} :
    List.Forall₂ (fun x p => placeOf s x = .ok p) w places ↔
      (∀ x ∈ w, isCrossSymbol s x = false) ∧ w.map Char.toUpper = places.map Symbol.ofNat ∧
        ∀ p ∈ places, p < s.bells := by
  induction w generalizing places with
  | nil => cases places <;> simp
  | cons x w ih =>
    cases places with
    | nil => simp
    | cons p places =>
      rw [List.forall₂_cons, ih, placeOf_eq_ok_iff]
      simp only [List.forall_mem_cons, List.map_cons, List.cons.injEq]
      tauto

/-- A text spells the places as which its symbols are read. -/
theorem spells_iff {w : List Char} {places : List ℕ} :
    Spells s w places ↔ w ≠ [] ∧ List.Forall₂ (fun x p => placeOf s x = .ok p) w places := by
  rw [forall₂_placeOf_iff]
  exact ⟨fun h => ⟨h.ne, h.noCross, h.capitals, h.inside⟩, fun h => ⟨h.1, h.2.1, h.2.2.1, h.2.2.2⟩⟩

theorem exists_forall₂_iff {α β : Type} {R : α → β → Prop} {xs : List α} :
    (∃ ys, List.Forall₂ R xs ys) ↔ ∀ x ∈ xs, ∃ y, R x y := by
  induction xs with
  | nil => simp
  | cons x xs ih =>
    rw [List.forall_mem_cons, ← ih]
    constructor
    · rintro ⟨_, h⟩
      cases h with
      | cons hx hxs => exact ⟨⟨_, hx⟩, _, hxs⟩
    · rintro ⟨⟨y, hx⟩, ys, hxs⟩
      exact ⟨y :: ys, .cons hx hxs⟩

/-- What is no cross is read by its symbols, and then by the pairing of their places. -/
theorem ofToken_of_noCross {w : List Char} (ne : w ≠ [])
    (noCross : ∀ x ∈ w, isCrossSymbol s x = false) (text : String) (offset : ℕ) :
    ofToken s text offset w =
      placesFrom s text (String.ofList w) offset w >>= fun places =>
        (ofMade s fun p => p ∈ places).mapError fun p =>
          ⟨.unpaired p, text, String.ofList w, offset⟩ := by
  obtain ⟨x, w, rfl⟩ := List.exists_cons_of_ne_nil ne
  simp only [ofToken, noCross x List.mem_cons_self, Bool.false_eq_true, and_false, if_false]
  refine congrArg _ (funext fun places => ?_)
  cases ofMade s fun p => p ∈ places <;> rfl

/-- A text spells places if each symbol of it is that of a place. -/
theorem exists_spells_iff {w : List Char} : (∃ places, Spells s w places) ↔ w ≠ [] ∧
    ∀ x ∈ w, isCrossSymbol s x = false ∧ ∃ p, x.toUpper = Symbol.ofNat p ∧ p < s.bells := by
  simp only [spells_iff, exists_and_left]
  rw [exists_forall₂_iff]
  simp only [placeOf_eq_ok_iff, exists_and_left]

namespace Spells

variable {w : List Char} {places : List ℕ} (h : Spells s w places)

include h

/-- A place is spelled if its symbol is among the capitals. -/
theorem mem_iff {p : ℕ} (lt : p < maxBells) :
    p ∈ places ↔ Symbol.ofNat p ∈ w.map Char.toUpper := by
  rw [h.capitals, List.mem_map]
  constructor
  · exact fun hp => ⟨p, hp, rfl⟩
  · rintro ⟨q, hq, same⟩
    have number := Symbol.number?_ofNat ((h.inside q hq).trans_le s.le_max)
    rw [same, Symbol.number?_ofNat lt, Option.some_inj] at number
    exact number ▸ hq

/-- A token that spells places is refused only for a place which cannot be paired. -/
theorem ofToken_eq (text : String) (offset : ℕ) : ofToken s text offset w =
    (ofMade s fun p => p ∈ places).mapError fun p =>
      ⟨.unpaired p, text, String.ofList w, offset⟩ := by
  have read : placesFrom s text (String.ofList w) offset w = .ok places :=
    placesFrom_eq_ok_iff.2 (spells_iff.1 h).2
  rw [ofToken_of_noCross h.ne h.noCross, read]
  rfl

end Spells

/-- A text that spells places is accepted as the places are, and refused for the same reason. -/
theorem Spells.parse_eq {text : String} {places : List ℕ} (h : Spells s text.toList places) :
    (parse s text).mapError NotationFault.reason =
      (ofPlaces s (places.map Nat.cast)).mapError NotationFault.reason := by
  have inside : ∀ p ∈ places.map Nat.cast, 0 ≤ p ∧ p < (s.bells : ℤ) := by
    intro p hp
    obtain ⟨q, hq, rfl⟩ := List.mem_map.1 hp
    have := h.inside q hq
    omega
  rw [parse, h.ofToken_eq, ofPlaces_eq inside, told_map_cast]
  cases ofMade s fun p => p ∈ places <;> rfl

/-- The symbols of places spell these places. -/
theorem spells_symbols {places : List ℕ} (ne : places ≠ []) (inside : ∀ p ∈ places, p < s.bells) :
    Spells s (symbols places).toList places := by
  rw [symbols, String.toList_ofList, spells_iff, List.forall₂_map_left_iff, List.forall₂_same]
  exact ⟨by simpa using ne, fun p hp => placeOf_ofNat (inside p hp)⟩

/-- Places are told alike by their numbers and by their symbols. -/
theorem parse_symbols {given : List ℤ} (ne : given ≠ [])
    (inside : ∀ p ∈ given, 0 ≤ p ∧ p < s.bells) :
    (parse s (symbols (given.map Int.toNat))).mapError NotationFault.reason =
      (ofPlaces s given).mapError NotationFault.reason := by
  have back : (given.map Int.toNat).map Nat.cast = given :=
    calc (given.map Int.toNat).map Nat.cast = given.map fun p : ℤ => (p.toNat : ℤ) := List.map_map
      _ = given.map id := List.map_congr_left fun p hp => Int.toNat_of_nonneg (inside p hp).1
      _ = given := List.map_id given
  have below : ∀ p ∈ given.map Int.toNat, p < s.bells := by
    rw [List.forall_mem_map]
    intro p hp
    have := inside p hp
    omega
  have spells := spells_symbols (mt List.map_eq_nil_iff.1 ne) below
  rw [spells.parse_eq, back]

/-! ## The places that a text tells -/

/-- The text tells the given places: none if it is a cross symbol by itself, and otherwise those
that it spells. -/
inductive Tells (s : Stage) : List Char → List ℕ → Prop
  | cross {x : Char} (h : isCrossSymbol s x) : Tells s [x] []
  | spelled {w : List Char} {places : List ℕ} (h : Spells s w places) : Tells s w places

namespace Tells

variable {w : List Char} {places : List ℕ}

theorem inside (h : Tells s w places) : ∀ p ∈ places, p < s.bells := by
  cases h with
  | cross => simp
  | spelled h => exact h.inside

theorem unique {places' : List ℕ} (h : Tells s w places) (h' : Tells s w places') :
    places = places' := by
  cases h with
  | cross h =>
    cases h' with
    | cross => rfl
    | spelled h' => simp [h'.noCross _ List.mem_cons_self] at h
  | spelled h =>
    cases h' with
    | cross h' => simp [h.noCross _ List.mem_cons_self] at h'
    | spelled h' =>
      have same : Relator.RightUnique fun x p => placeOf s x = .ok p :=
        fun _ _ _ hp hq => Except.ok.inj (hp.symm.trans hq)
      exact List.right_unique_forall₂' same (spells_iff.1 h).2 (spells_iff.1 h').2

end Tells

/-- A text denotes the change that is made of the places it tells. -/
theorem Tells.parse_eq_ok_iff {text : String} {places : List ℕ} (h : Tells s text.toList places)
    {c : Change s} : parse s text = .ok c ↔ ofMade s (fun p => p ∈ places) = .ok c := by
  rw [parse]
  generalize text.toList = w at h ⊢
  cases h with
  | cross h =>
    rw [ofToken_eq_ok_iff_parse, parse_cross h]
    simp only [List.not_mem_nil, decide_false, ofMade_none, Except.ok.injEq]
  | spelled h => rw [h.ofToken_eq, mapError_eq_ok_iff]

theorem Tells.parse_eq_ok_iff_ofPlaces {text : String} {places : List ℕ}
    (h : Tells s text.toList places) {c : Change s} :
    parse s text = .ok c ↔ ofPlaces s (places.map Nat.cast) = .ok c := by
  have inside : ∀ p ∈ places.map Nat.cast, 0 ≤ p ∧ p < (s.bells : ℤ) := by
    simpa using h.inside
  rw [h.parse_eq_ok_iff, ofPlaces_eq_ok_iff inside, told_map_cast]

theorem parse_of_cross {text : String} {x : Char} (eq : text.toList = [x])
    (h : isCrossSymbol s x) : parse s text = .ok (cross s) := by
  rw [← parse_cross h, ← eq, String.ofList_toList]

/-- A text that is accepted is a cross symbol by itself, or spells places. -/
theorem cross_or_spells_of_parse {text : String} {c : Change s} (h : parse s text = .ok c) :
    (∃ x, text.toList = [x] ∧ isCrossSymbol s x) ∨ ∃ places, Spells s text.toList places := by
  rw [parse, ofToken_eq_ok_iff] at h
  rcases h with ⟨x, eq, hx, -⟩ | ⟨ne, places, read, -⟩
  · exact .inl ⟨x, eq, hx⟩
  · exact .inr ⟨places, spells_iff.2 ⟨ne, read⟩⟩

theorem exists_tells_of_parse {text : String} {c : Change s} (h : parse s text = .ok c) :
    ∃ places, Tells s text.toList places := by
  rcases cross_or_spells_of_parse h with ⟨x, eq, hx⟩ | ⟨places, spells⟩
  · exact ⟨[], eq ▸ .cross hx⟩
  · exact ⟨places, .spelled spells⟩

/-! ## Which texts are changes -/

/-- The places that are not made can be paired: each run of them is of even length, but for one that
ends at the top of an odd stage. -/
def Pairable (n : ℕ) (made : ℕ → Bool) : Prop :=
  ∀ a b, Run n made a b → Even (b - a) ∨ Odd n ∧ b = n

theorem exists_ofMade_iff {made : ℕ → Bool} :
    (∃ c, ofMade s made = .ok c) ↔ Pairable s.bells made := by
  rw [Pairable, ← firstUnpaired_eq_none_iff]
  simp only [ofMade_eq_ok_iff]
  constructor
  · rintro ⟨c, paired, -⟩
    exact paired
  · intro paired
    exact ⟨_, paired, rfl⟩

/-- A text is a change if it is a cross by itself, or spells places that leave the others in
pairs. -/
theorem exists_parse_iff {text : String} : (∃ c, parse s text = .ok c) ↔
    (∃ x, text.toList = [x] ∧ isCrossSymbol s x) ∨
      ∃ places, Spells s text.toList places ∧ Pairable s.bells fun p => p ∈ places := by
  constructor
  · rintro ⟨c, h⟩
    rcases cross_or_spells_of_parse h with cross | ⟨places, spells⟩
    · exact .inl cross
    · have made := (Tells.spelled spells).parse_eq_ok_iff.1 h
      exact .inr ⟨places, spells, exists_ofMade_iff.1 ⟨c, made⟩⟩
  · rintro (⟨x, eq, hx⟩ | ⟨places, spells, pairable⟩)
    · exact ⟨_, parse_of_cross eq hx⟩
    · obtain ⟨c, made⟩ := exists_ofMade_iff.2 pairable
      exact ⟨c, (Tells.spelled spells).parse_eq_ok_iff.2 made⟩

/-! ## Which texts are the same change -/

/-- The places that are made when the given ones are told: these, and the top place of an odd stage
if a run of odd length ends there. -/
def madeBy (s : Stage) (places : List ℕ) : Set ℕ :=
  {p | p ∈ places ∨ p + 1 = s.bells ∧ Odd s.bells ∧
    ∃ a, Run s.bells (fun q => q ∈ places) a s.bells ∧ Odd (s.bells - a)}

theorem mem_madeBy {places : List ℕ} (inside : ∀ p ∈ places, p < s.bells) {c : Change s}
    (made : ofMade s (fun p => p ∈ places) = .ok c) {p : ℕ} :
    p ∈ madeBy s places ↔ p ∈ c.places := by
  rw [mem_places_ofMade made, decide_eq_true_eq, and_iff_right_of_imp]
  · rfl
  · rintro (h | ⟨top, -⟩)
    · exact inside p h
    · omega

/-- A change is told by the places that it makes. -/
theorem eq_iff_madeBy_eq {text text' : String} {places places' : List ℕ} {c c' : Change s}
    (told : Tells s text.toList places) (told' : Tells s text'.toList places')
    (h : parse s text = .ok c) (h' : parse s text' = .ok c') :
    c = c' ↔ madeBy s places = madeBy s places' := by
  have made := fun p => mem_madeBy told.inside (told.parse_eq_ok_iff.1 h) (p := p)
  have made' := fun p => mem_madeBy told'.inside (told'.parse_eq_ok_iff.1 h') (p := p)
  simp only [Set.ext_iff, made, made']
  constructor
  · rintro rfl p
    rfl
  · intro same
    exact places_injective (c.pairwise_places.eq_of_mem_iff c'.pairwise_places same)

/-- The same symbols are in both texts, if capitals and small letters are not told apart. -/
def SameCapitals (w w' : List Char) : Prop :=
  ∀ x, x ∈ w.map Char.toUpper ↔ x ∈ w'.map Char.toUpper

namespace SameCapitals

variable {w w' : List Char} (same : SameCapitals w w')

include same

theorem exists_mem {x : Char} (hx : x ∈ w) : ∃ y ∈ w', y.toUpper = x.toUpper :=
  List.mem_map.1 ((same _).1 (List.mem_map_of_mem hx))

theorem mem_iff_of_spells {places places' : List ℕ} (h : Spells s w places)
    (h' : Spells s w' places') (p : ℕ) : p ∈ places ↔ p ∈ places' := by
  by_cases lt : p < maxBells
  · rw [h.mem_iff lt, h'.mem_iff lt, same]
  · have outside : ∀ {w places}, Spells s w places → p ∉ places := fun h hp =>
      lt ((h.inside p hp).trans_le s.le_max)
    exact iff_of_false (outside h) (outside h')

/-- A text with the symbols of one that spells places spells the same places. -/
theorem exists_spells {places : List ℕ} (h : Spells s w places) :
    ∃ places', Spells s w' places' ∧ ∀ p, p ∈ places ↔ p ∈ places' := by
  obtain ⟨ne, each⟩ := exists_spells_iff.1 ⟨places, h⟩
  have spelled : ∃ places', Spells s w' places' := by
    refine exists_spells_iff.2 ⟨?_, fun y hy => ?_⟩
    · rintro rfl
      obtain ⟨x, hx⟩ := List.exists_mem_of_ne_nil w ne
      obtain ⟨y, hy, -⟩ := same.exists_mem hx
      cases hy
    · obtain ⟨x, hx, capital⟩ := List.mem_map.1 ((same _).2 (List.mem_map_of_mem hy))
      rw [← isCrossSymbol_congr capital, ← capital]
      exact each x hx
  obtain ⟨places', h'⟩ := spelled
  exact ⟨places', h', same.mem_iff_of_spells h h'⟩

theorem symm : SameCapitals w' w := fun x => (same x).symm

end SameCapitals

/-- A change that has a cross symbol in its text is the cross. -/
theorem eq_cross_of_mem {text : String} {c : Change s} (h : parse s text = .ok c) {x : Char}
    (hx : x ∈ text.toList) (cross : isCrossSymbol s x) : c = Change.cross s := by
  rcases cross_or_spells_of_parse h with ⟨y, eq, hy⟩ | ⟨places, spells⟩
  · exact Except.ok.inj (h.symm.trans (parse_of_cross eq hy))
  · rw [spells.noCross x hx] at cross
    cases cross

section SameCapitals

variable {text text' : String} (same : SameCapitals text.toList text'.toList) {c c' : Change s}

include same

theorem parse_of_sameCapitals (noCross : ∀ x ∈ text.toList, isCrossSymbol s x = false)
    (h : parse s text = .ok c) : parse s text' = .ok c := by
  rcases cross_or_spells_of_parse h with ⟨x, eq, hx⟩ | ⟨places, spells⟩
  · simp [noCross x (eq ▸ List.mem_cons_self)] at hx
  · obtain ⟨places', spells', mem⟩ := same.exists_spells spells
    have made := (Tells.spelled spells).parse_eq_ok_iff.1 h
    simp only [mem] at made
    exact (Tells.spelled spells').parse_eq_ok_iff.2 made

/-- Places are read in any order, as often as one likes, as capitals or not. -/
theorem parse_iff_of_sameCapitals (noCross : ∀ x ∈ text.toList, isCrossSymbol s x = false) :
    parse s text = .ok c ↔ parse s text' = .ok c := by
  refine ⟨parse_of_sameCapitals same noCross, parse_of_sameCapitals same.symm fun y hy => ?_⟩
  obtain ⟨x, hx, capital⟩ := same.symm.exists_mem hy
  rw [← isCrossSymbol_congr capital, noCross x hx]

theorem eq_of_sameCapitals (h : parse s text = .ok c) (h' : parse s text' = .ok c') : c = c' := by
  by_cases noCross : ∀ x ∈ text.toList, isCrossSymbol s x = false
  · exact Except.ok.inj (((parse_iff_of_sameCapitals same noCross).1 h).symm.trans h')
  · simp only [not_forall, Bool.not_eq_false] at noCross
    obtain ⟨x, hx, cross⟩ := noCross
    obtain ⟨y, hy, capital⟩ := same.exists_mem hx
    rw [eq_cross_of_mem h hx cross, eq_cross_of_mem h' hy (isCrossSymbol_congr capital ▸ cross)]

end SameCapitals

/-! ## One change -/

/-- **A text is a change if it is a cross, or spells places that can be told.** Told places are
those of the symbols, none for a cross; the change is the one with these places, and where there is
none the text and the places are refused for the same reason. The places that the change makes are
paired once more to the same change. Two texts are the same change just if they make the same
places, the top place of an odd stage included, so that the order of symbols, their number, and
whether they are capitals, makes no difference; and a change is read from its own text. -/
theorem parse_agrees_with_ofPlaces (s : Stage) :
    (∀ text : String, (∃ c, parse s text = .ok c) ↔
      (∃ x, text.toList = [x] ∧ isCrossSymbol s x) ∨
        ∃ places, Spells s text.toList places ∧ Pairable s.bells fun p => p ∈ places) ∧
    (∀ (text : String) (x : Char), text.toList = [x] → isCrossSymbol s x →
      parse s text = .ok (cross s) ∧ ofPlaces s [] = .ok (cross s)) ∧
    (∀ (text : String) (places : List ℕ), Spells s text.toList places →
      (parse s text).mapError NotationFault.reason =
        (ofPlaces s (places.map Nat.cast)).mapError NotationFault.reason) ∧
    (∀ given : List ℤ, given ≠ [] → (∀ p ∈ given, 0 ≤ p ∧ p < s.bells) →
      (parse s (symbols (given.map Int.toNat))).mapError NotationFault.reason =
        (ofPlaces s given).mapError NotationFault.reason) ∧
    (∀ (text : String) (c : Change s), parse s text = .ok c →
      ∃ places, Tells s text.toList places ∧
        (∀ places', Tells s text.toList places' → places' = places) ∧
        ofPlaces s (places.map Nat.cast) = .ok c ∧
        ofPlaces s (c.places.map Nat.cast) = .ok c ∧
        pairUp s.bells places = .ok (c.places, c.row.toList) ∧
        pairUp s.bells c.places = .ok (c.places, c.row.toList) ∧
        ∀ (text' : String) (places' : List ℕ) (c' : Change s), parse s text' = .ok c' →
          Tells s text'.toList places' → (c = c' ↔ madeBy s places = madeBy s places')) ∧
    (∀ text text' : String, SameCapitals text.toList text'.toList →
      (∀ c c' : Change s, parse s text = .ok c → parse s text' = .ok c' → c = c') ∧
      ((∀ x ∈ text.toList, isCrossSymbol s x = false) →
        ∀ c : Change s, parse s text = .ok c ↔ parse s text' = .ok c)) ∧
    ∀ c : Change s, parse s c.text = .ok c := by
  refine ⟨fun _ => exists_parse_iff, fun text x eq hx => ⟨parse_of_cross eq hx, ?_⟩,
    fun _ _ spells => spells.parse_eq, fun _ ne inside => parse_symbols ne inside,
    fun text c h => ?_, fun _ _ same => ⟨fun _ _ => eq_of_sameCapitals same,
      fun noCross _ => parse_iff_of_sameCapitals same noCross⟩, parse_text⟩
  · have told : Tells s text.toList [] := eq ▸ .cross hx
    exact told.parse_eq_ok_iff_ofPlaces.1 (parse_of_cross eq hx)
  · obtain ⟨places, told⟩ := exists_tells_of_parse h
    have made := told.parse_eq_ok_iff.1 h
    have once : pairUp s.bells places = .ok (c.places, c.row.toList) :=
      pairUp_of_ofMade (by simp) made
    have twice : pairUp s.bells c.places = .ok (c.places, c.row.toList) :=
      pairUp_of_ofMade (by simp) c.ofMade_places
    exact ⟨places, told, fun _ told' => told'.unique told, told.parse_eq_ok_iff_ofPlaces.1 h,
      c.ofPlaces_places, once, twice,
      fun _ _ _ h' told' => eq_iff_madeBy_eq told told' h h'⟩

/-- Five bells: two places in the wrong order leave the others to be paired off up to the top; a
single inner place is refused, written or not; the top place told is the cross, as `x` is. -/
theorem parse_agrees_with_ofPlaces_five_bells :
    let s : Stage := ⟨5, by decide, by decide⟩
    Spells s "10".toList [1, 0] ∧ SameCapitals "10".toList "0110".toList ∧
      (∃ c, parse s "10" = .ok c ∧ parse s "0110" = .ok c) ∧
      (parse s "10").mapError NotationFault.reason =
        (ofPlaces s [1, 0]).mapError NotationFault.reason ∧
      (∀ p ∈ [1], 0 ≤ p ∧ p < (s.bells : ℤ)) ∧
      (parse s "1").mapError NotationFault.reason =
        (ofPlaces s [1]).mapError NotationFault.reason ∧
      parse s "x" = .ok (cross s) ∧ parse s "4" = .ok (cross s) ∧
      madeBy s [] = madeBy s [4] := by
  intro s
  obtain ⟨accepted, crossed, spelled, numbered, denoted, letters, -⟩ :=
    parse_agrees_with_ofPlaces s
  have spells : Spells s "10".toList [1, 0] := ⟨by decide, by simp [isCrossSymbol], rfl, by decide⟩
  have pairable : Pairable s.bells fun p => p ∈ [1, 0] :=
    firstUnpaired_eq_none_iff.1 (by decide)
  have same : SameCapitals "10".toList "0110".toList := by simp [SameCapitals]
  obtain ⟨c, read⟩ := (accepted "10").2 (.inr ⟨[1, 0], spells, pairable⟩)
  have read' := ((letters "10" "0110" same).2 spells.noCross c).1 read
  have inside : ∀ p ∈ [1], 0 ≤ p ∧ p < (s.bells : ℤ) := by decide
  have refused := numbered [1] (by decide) inside
  have small : parse s "x" = .ok (cross s) := (crossed "x" 'x' (by decide) (by decide)).1
  have told : Tells s "x".toList [] := .cross (by decide)
  have top : Spells s "4".toList [4] := ⟨by decide, by simp [isCrossSymbol], rfl, by decide⟩
  have told' : Tells s "4".toList [4] := .spelled top
  have four : parse s "4" = .ok (cross s) := told'.parse_eq_ok_iff.2 (by decide +kernel)
  obtain ⟨_, -, only, -, -, -, -, equal⟩ := denoted "x" (cross s) small
  obtain rfl := only [] told
  exact ⟨spells, same, ⟨c, read, read'⟩, spelled "10" [1, 0] spells, inside, refused, small, four,
    (equal "4" [4] (cross s) four told').1 rfl⟩

end Change

end Campanology
