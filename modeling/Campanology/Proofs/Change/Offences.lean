import Campanology.Proofs.Change.Denotation
import Campanology.Proofs.Change.Tokens

/-!
# Where a lead is refused

A lead is read from left to right, and refused for the first thing in it that cannot be read: a
block without changes, a symbol that stands for no place of the stage, or a word whose places leave
one that cannot be paired (`LeadOffence`). The refusal points into the text of the whole lead, at
that symbol or at the beginning of the block or word, and each word that ends in front of it can be
read (`parseLead_refuses_leftmost`).

A word is cut so that it holds no cross, and so no token is refused because there is a cross in it
or because it is empty (`ofToken_eq_error`). Nor is a change refused when it is made of the places
that the pairing of a word has found (`ofTokenByPlaces_eq`): these leave the others in pairs.
-/

namespace Campanology.Change

variable {s : Stage}

/-! ## Tokens made by their places -/

/-- Reads a token as `ofToken` does, but makes the change anew of the places that are told by a
cross or found by pairing. A refusal by this last step is on the right, any other on the left. -/
def ofTokenByPlaces (s : Stage) (text : String) (offset : ℕ) (token : List Char) :
    Except (NotationFault ⊕ NotationFault) (Change s) :=
  let shown := String.ofList token
  match token with
  | [] => .error (.inl ⟨.noChange, text, shown, offset⟩)
  | x :: xs =>
    if xs = [] ∧ isCrossSymbol s x then (ofPlaces s []).mapError .inr
    else do
      let places ← (placesFrom s text shown offset (x :: xs)).mapError .inl
      match pairUp s.bells places with
      | .ok (fixed, _) => (ofPlaces s (fixed.map Nat.cast)).mapError .inr
      | .error p => .error (.inl ⟨.unpaired p, text, shown, offset⟩)

theorem ofPlaces_nil : ofPlaces s [] = .ok (cross s) := by
  rw [ofPlaces_eq_ok_iff (by simp)]
  exact ofMade_none

/-- The places that make the change of a token are never refused. -/
theorem ofTokenByPlaces_eq (text : String) (offset : ℕ) (token : List Char) :
    ofTokenByPlaces s text offset token = (ofToken s text offset token).mapError .inl := by
  rcases token with _ | ⟨x, xs⟩
  · rfl
  rw [ofTokenByPlaces, ofToken]
  split
  · rw [ofPlaces_nil]
    rfl
  cases placesFrom s text (String.ofList (x :: xs)) offset (x :: xs) with
  | error f => rfl
  | ok places =>
    have told : ∀ q, decide (q ∈ places) = true ↔ q ∈ places := by simp
    simp only [bind, Except.bind, Except.mapError]
    cases made : ofMade s fun p => p ∈ places with
    | error p => rw [pairUp_of_ofMade_error told made]
    | ok c =>
      rw [pairUp_of_ofMade told made]
      simp only [ofPlaces_places]
      rfl

/-! ## Refused tokens -/

theorem placeOf_eq_error_iff {x : Char} {reason : NotationReason}
    (noCross : isCrossSymbol s x = false) : placeOf s x = .error reason ↔
      Symbol.number? x = none ∧ reason = .unknownPlace x ∨
      ∃ p, Symbol.number? x = some p ∧ s.bells ≤ p ∧ reason = .symbolOutOfRange x s := by
  rw [placeOf, noCross]
  cases Symbol.number? x with
  | none => simp [eq_comm]
  | some p =>
    by_cases inside : p < s.bells
    · simp [inside, Nat.not_le.2 inside]
    · simp [inside, Nat.not_lt.1 inside, eq_comm]

/-- Symbols are refused for the first of them that is refused. -/
theorem placesFrom_eq_error_iff {text token : String} {index : ℕ} {w : List Char}
    {f : NotationFault} : placesFrom s text token index w = .error f ↔
      ∃ before x after reason, w = before ++ x :: after ∧
        (∀ y ∈ before, ∃ p, placeOf s y = .ok p) ∧ placeOf s x = .error reason ∧
        f = ⟨reason, text, token, index + before.length⟩ := by
  induction w generalizing index with
  | nil => simp [placesFrom]
  | cons y w ih =>
    rw [placesFrom]
    cases read : placeOf s y with
    | error reason =>
      constructor
      · intro h
        exact ⟨[], y, w, reason, rfl, by simp, read, (Except.error.inj h).symm⟩
      · rintro ⟨_ | ⟨_, before⟩, x, after, reason', ⟨⟩, fine, refused, rfl⟩
        · obtain rfl := Except.error.inj (read.symm.trans refused)
          rfl
        · obtain ⟨p, hp⟩ := fine y List.mem_cons_self
          simp [read] at hp
    | ok p =>
      simp only [bind_eq_error_iff, ih]
      constructor
      · rintro (⟨before, x, after, reason, rfl, fine, refused, rfl⟩ | ⟨_, _, ⟨⟩⟩)
        exact ⟨y :: before, x, after, reason, rfl, List.forall_mem_cons.2 ⟨⟨p, read⟩, fine⟩,
          refused, by simp; omega⟩
      · rintro ⟨_ | ⟨_, before⟩, x, after, reason, ⟨⟩, fine, refused, rfl⟩
        · simp [read] at refused
        · exact .inl ⟨before, x, after, reason, rfl, (List.forall_mem_cons.1 fine).2, refused,
            by simp; omega⟩

theorem isCrossSymbol_of_isWordChar {x : Char} (h : isWordChar s x) :
    isCrossSymbol s x = false := by
  simp only [isWordChar, Bool.and_eq_true, Bool.not_eq_true'] at h
  exact h.2

/-- A word is refused for a symbol that stands for no place of the stage, or for a place that cannot
be paired. -/
theorem ofToken_eq_error {text : String} {offset : ℕ} {w : List Char} {f : NotationFault}
    (ne : w ≠ []) (word : ∀ x ∈ w, isWordChar s x) (h : ofToken s text offset w = .error f) :
    (∃ k x, w[k]? = some x ∧
      (Symbol.number? x = none ∧ f = ⟨.unknownPlace x, text, String.ofList w, offset + k⟩ ∨
      ∃ p, Symbol.number? x = some p ∧ s.bells ≤ p ∧
        f = ⟨.symbolOutOfRange x s, text, String.ofList w, offset + k⟩)) ∨
    ∃ places p, Spells s w places ∧ (ofMade s fun q => q ∈ places) = .error p ∧
      f = ⟨.unpaired p, text, String.ofList w, offset⟩ := by
  have noCross : ∀ x ∈ w, isCrossSymbol s x = false := fun x hx =>
    isCrossSymbol_of_isWordChar (word x hx)
  rw [ofToken_of_noCross ne noCross, bind_eq_error_iff] at h
  obtain h | ⟨places, read, h⟩ := h
  · obtain ⟨before, x, after, reason, rfl, -, refused, rfl⟩ := placesFrom_eq_error_iff.1 h
    refine .inl ⟨before.length, x, by simp, ?_⟩
    rcases (placeOf_eq_error_iff (noCross x (by simp))).1 refused with
      ⟨unknown, rfl⟩ | ⟨p, known, beyond, rfl⟩
    · exact .inl ⟨unknown, rfl⟩
    · exact .inr ⟨p, known, beyond, rfl⟩
  · cases made : ofMade s fun q => q ∈ places with
    | ok c => simp [made, Except.mapError] at h
    | error p =>
      rw [made] at h
      exact .inr ⟨places, p, spells_iff.2 ⟨ne, placesFrom_eq_ok_iff.1 read⟩, made,
        (Except.error.inj h).symm⟩

/-! ## Refused leads -/

/-- What a lead is refused for, and where. -/
inductive LeadOffence (s : Stage) (text : String) : NotationFault → Prop
  /-- There are only separators and blanks in a part of the text, from the index on. -/
  | noBlock {block : Piece} (part : block.PartOf ⟨0, text.toList⟩)
      (empty : ∀ x ∈ block.chars, isSeparator x ∨ Text.isBlank x) :
      LeadOffence s text ⟨.noBlock, text, String.ofList block.chars, block.offset⟩
  /-- The character at the index, in a word, is no symbol. -/
  | unknown {w : Piece} {i : ℕ} {x : Char} (word : WordOf s text.toList w)
      (part : w.PartOf ⟨0, text.toList⟩) (start : w.offset ≤ i) (stop : i < w.stop)
      (here : text.toList[i]? = some x) (unknown : Symbol.number? x = none) :
      LeadOffence s text ⟨.unknownPlace x, text, String.ofList w.chars, i⟩
  /-- The symbol at the index, in a word, is of a place above the stage. -/
  | beyond {w : Piece} {i p : ℕ} {x : Char} (word : WordOf s text.toList w)
      (part : w.PartOf ⟨0, text.toList⟩) (start : w.offset ≤ i) (stop : i < w.stop)
      (here : text.toList[i]? = some x) (known : Symbol.number? x = some p) (above : s.bells ≤ p) :
      LeadOffence s text ⟨.symbolOutOfRange x s, text, String.ofList w.chars, i⟩
  /-- The word that begins at the index spells places that leave one which cannot be paired. -/
  | unpaired {w : Piece} {places : List ℕ} {p : ℕ} (word : WordOf s text.toList w)
      (part : w.PartOf ⟨0, text.toList⟩) (spells : Spells s w.chars places)
      (alone : (ofMade s fun q => q ∈ places) = .error p) :
      LeadOffence s text ⟨.unpaired p, text, String.ofList w.chars, w.offset⟩

/-- A token that is refused is a word, as crosses are read. -/
theorem wordOf_of_ofToken_error {text : String} {w : Piece} {f : NotationFault}
    (mem : w ∈ tokens s text.toList) (h : ofToken s text w.offset w.chars = .error f) :
    WordOf s text.toList w := by
  obtain ⟨b, -, hw⟩ := List.mem_flatMap.1 mem
  rcases cross_or_word_of_mem_lexemes b.body.chars hw with ⟨x, one, cross⟩ | word
  · simp [one, ofToken, cross] at h
  · exact wordOf_iff.2 ⟨word, mem⟩

/-- A token that is refused is an offence of the lead, at an index within the token. -/
theorem leadOffence_of_ofToken_error {text : String} {w : Piece} {f : NotationFault}
    (mem : w ∈ tokens s text.toList) (h : ofToken s text w.offset w.chars = .error f) :
    LeadOffence s text f ∧ f.index < w.stop := by
  have word := wordOf_of_ofToken_error mem h
  obtain ⟨⟨ne, hw⟩, -⟩ := wordOf_iff.1 word
  have part := partOf_of_mem_tokens mem
  rcases ofToken_eq_error ne hw h with ⟨k, x, here, refused⟩ | ⟨places, p, spells, alone, rfl⟩
  · have lt := (List.getElem?_eq_some_iff.1 here).1
    have stop : w.offset + k < w.stop := Nat.add_lt_add_left lt _
    have there : text.toList[w.offset + k]? = some x := (part.getElem? lt).trans here
    rcases refused with ⟨unknown, rfl⟩ | ⟨p, known, above, rfl⟩
    · exact ⟨.unknown word part (Nat.le_add_right _ _) stop there unknown, stop⟩
    · exact ⟨.beyond word part (Nat.le_add_right _ _) stop there known above, stop⟩
  · exact ⟨.unpaired word part spells alone, offset_lt_stop_of_mem_tokens mem⟩

theorem isSeparator_of_lexemes_eq_nil (text : List Char) : ∀ {offset : ℕ},
    lexemes s ⟨offset, text⟩ = [] → ∀ x ∈ text, isSeparator x := by
  induction text using body_induction (s := s) with
  | nil => simp
  | separator x text hx ih =>
    intro offset none
    rw [lexemes_cons_separator hx] at none
    exact List.forall_mem_cons.2 ⟨hx, ih none⟩
  | cross x text hx ih =>
    intro offset none
    rw [lexemes_cons_cross hx] at none
    cases none
  | word run text ne all ends ih =>
    intro offset none
    rw [lexemes_word_append ne all ends] at none
    cases none

/-! ## From left to right -/

/-- A block is refused if it has no lexemes, or with the first lexeme that is refused. -/
theorem parseBlock_eq_error_iff {text : String} {p : Piece} {f : NotationFault} :
    parseBlock s text p = .error f ↔
      lexemes s p = [] ∧ f = ⟨.noBlock, text, String.ofList p.chars, p.offset⟩ ∨
      ∃ before w after, lexemes s p = before ++ w :: after ∧
        ofToken s text w.offset w.chars = .error f ∧
        ∀ v ∈ before, ∃ c, ofToken s text v.offset v.chars = .ok c := by
  unfold parseBlock
  split
  · rename_i none
    simp [none, eq_comm]
  · rename_i words some
    rw [mapM_eq_error_iff, or_iff_right (fun none => some none.1)]

theorem ringBlock_eq_error_iff {text : String} {company : Bool} {b : NotatedBlock}
    {f : NotationFault} :
    ringBlock s text company b = .error f ↔ parseBlock s text b.body = .error f := by
  rw [ringBlock, bind_eq_error_iff, or_iff_left]
  rintro ⟨cs, -, h⟩
  split at h <;> cases h

theorem exists_ofToken_of_ringBlock {text : String} {company : Bool} {b : NotatedBlock}
    {cs : List (Change s)} (h : ringBlock s text company b = .ok cs) :
    ∀ w ∈ lexemes s b.body, ∃ c, ofToken s text w.offset w.chars = .ok c := by
  obtain ⟨changes, h, -⟩ := bind_eq_ok_iff.1 h
  unfold parseBlock at h
  split at h
  · cases h
  · rw [mapM_eq_ok_iff] at h
    exact exists_forall₂_iff.1 ⟨_, h⟩

/-- The tokens in front of a refused block, and those of it that are read, are read; all others end
behind the index of the refusal. -/
theorem parseLead_eq_error {text : String} {f : NotationFault} (h : parseLead s text = .error f) :
    ∃ read rest, tokens s text.toList = read ++ rest ∧
      (∀ w ∈ read, ∃ c, ofToken s text w.offset w.chars = .ok c) ∧
      (∀ w ∈ rest, f.index < w.stop) ∧ LeadOffence s text f := by
  have shown : String.ofList text.toList = text := String.ofList_toList
  unfold parseLead at h
  split at h
  · rename_i blank
    obtain rfl := Except.error.inj h
    refine ⟨[], tokens s text.toList, rfl, by simp, fun w hw => ?_, ?_⟩
    · exact (Nat.zero_le _).trans_lt (offset_lt_stop_of_mem_tokens hw)
    · have offence := @LeadOffence.noBlock s text ⟨0, text.toList⟩ ⟨[], [], by simp, rfl⟩
        fun x hx => .inr (List.all_eq_true.1 blank x hx)
      rwa [shown] at offence
  · obtain h | ⟨_, _, ⟨⟩⟩ := bind_eq_error_iff.1 h
    obtain ⟨before, b, after, cut, refused, fine⟩ := mapM_eq_error_iff.1 h
    have whole := tokens_of_cut (s := s) cut
    have mem : b ∈ blocks text.toList := by simp [cut]
    have readBefore : ∀ w ∈ before.flatMap fun b => lexemes s b.body,
        ∃ c, ofToken s text w.offset w.chars = .ok c := by
      intro w hw
      obtain ⟨b', hb', hw⟩ := List.mem_flatMap.1 hw
      obtain ⟨cs, hcs⟩ := fine b' hb'
      exact exists_ofToken_of_ringBlock hcs w hw
    rcases parseBlock_eq_error_iff.1 (ringBlock_eq_error_iff.1 refused) with
      ⟨none, rfl⟩ | ⟨front, w, behind, parts, refused, fine⟩
    · rw [none, List.nil_append] at whole
      refine ⟨_, _, whole, readBefore, fun w hw => offset_lt_stop_of_mem_behind cut hw, ?_⟩
      exact .noBlock (partOf_of_mem_blocks mem) fun x hx =>
        .inl (isSeparator_of_lexemes_eq_nil _ none x hx)
    · rw [parts, List.append_assoc, ← List.append_assoc, List.cons_append] at whole
      have hw : w ∈ tokens s text.toList := by simp [whole]
      obtain ⟨offence, within⟩ := leadOffence_of_ofToken_error hw refused
      refine ⟨_, _, whole, List.forall_mem_append.2 ⟨readBefore, fine⟩, ?_, offence⟩
      exact List.forall_mem_cons.2 ⟨within, fun v hv =>
        within.trans_le (stop_le_stop_of_mem_behind whole v hv)⟩

/-- **A lead is refused for the first thing in it that cannot be read**, and the refusal points to
it in the text of the whole lead: to a symbol in a word that stands for no place of the stage, to
the beginning of a word whose places cannot be paired, or to the beginning of a block without
changes. Every word that ends in front of that index can be read by itself. No change is refused
when it is made of the places found for it. -/
theorem parseLead_refuses_leftmost (s : Stage) (text : String) (f : NotationFault)
    (refused : parseLead s text = .error f) :
    f.text = text ∧ LeadOffence s text f ∧
    (∀ w, WordOf s text.toList w → w.stop ≤ f.index →
      ∃ c, parse s (String.ofList w.chars) = .ok c) ∧
    ∀ offset token, ofTokenByPlaces s text offset token =
      (ofToken s text offset token).mapError .inl := by
  obtain ⟨read, rest, whole, fine, behind, offence⟩ := parseLead_eq_error refused
  refine ⟨by cases offence <;> rfl, offence, fun w word left => ?_,
    fun offset token => ofTokenByPlaces_eq text offset token⟩
  have mem := (wordOf_iff.1 word).2
  rw [whole, List.mem_append] at mem
  rcases mem with mem | mem
  · obtain ⟨c, hc⟩ := fine w mem
    exact ⟨c, ofToken_eq_ok_iff_parse.1 hc⟩
  · exact absurd left (Nat.not_le.2 (behind w mem))

/-- At five bells: the second segment, behind blanks and a sign, has a word with a symbol above the
stage, and one in front of it that can be read. -/
theorem parseLead_refuses_leftmost_five_bells :
    let s : Stage := ⟨5, by decide, by decide⟩
    let text := "-0,  &.4.08-1"
    let f : NotationFault := ⟨.symbolOutOfRange '8' s, text, "08", 10⟩
    parseLead s text = .error f ∧ f.text = text ∧ LeadOffence s text f ∧
      (WordOf s text.toList ⟨7, ['4']⟩ ∧ ∃ c, parse s "4" = .ok c) ∧
      ofTokenByPlaces s text 9 ['0', '8'] = .error (.inl f) := by
  intro s text f
  have refused : parseLead s "-0,  &.4.08-1" =
    .error ⟨.symbolOutOfRange '8' s, "-0,  &.4.08-1", "08", 10⟩ := rfl
  have mem : ⟨7, ['4']⟩ ∈ tokens s text.toList := by decide
  have word : WordOf s text.toList ⟨7, ['4']⟩ :=
    wordOf_iff.2 ⟨⟨by simp, List.all_eq_true.1 rfl⟩, mem⟩
  obtain ⟨same, offence, left, byPlaces⟩ := parseLead_refuses_leftmost s text f refused
  exact ⟨refused, same, offence, ⟨word, left _ word (by decide)⟩, byPlaces 9 ['0', '8']⟩

end Campanology.Change
