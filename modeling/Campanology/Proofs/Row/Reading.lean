import Mathlib.Order.Bounds.Basic
import Mathlib.Data.List.Sort
import Campanology.Proofs.Row.Packed

/-!
# Reading rows and refusing texts

A text shows bells if its characters are their symbols, in either case (`ShowsBells`). It is a row
of a stage exactly if it shows each bell of the stage once, and the row is then written as the text
is in capitals (`parse_eq_ok_iff`, `exists_parse_iff`). Any other text has a first offence
(`FirstOffence`), with which it is refused: a wrong length before all else, then the first character
which is no symbol, and only then the first bell which the stage does not have or which rang before.

As a text of the right length in which a bell rings twice has no room for every bell, the bells told
to be missing are never none (`exists_missing`).
-/

namespace Campanology.Row

variable {s : Stage}

/-! ## The least place from a place on -/

section Least

variable {P : ℕ → Prop} {k p : ℕ}

theorem isLeast_from_iff (h : P k) : IsLeast {p | k ≤ p ∧ P p} p ↔ p = k :=
  have least : IsLeast {p | k ≤ p ∧ P p} k := ⟨⟨le_rfl, h⟩, fun _ hp => hp.1⟩
  ⟨fun hp => hp.unique least, fun hp => hp ▸ least⟩

theorem setOf_from_succ (h : ¬ P k) : {p | k ≤ p ∧ P p} = {p | k + 1 ≤ p ∧ P p} := by
  ext p
  refine ⟨fun hp => ⟨lt_of_le_of_ne hp.1 ?_, hp.2⟩, fun hp => ⟨Nat.le_of_succ_le hp.1, hp.2⟩⟩
  rintro rfl
  exact h hp.2

end Least

/-! ## Symbols -/

/-- The text shows the bells, each by its symbol, whether that is a capital or not. -/
def ShowsBells (text : List Char) (bells : List ℕ) : Prop :=
  List.Forall₂ (fun c b => b < maxBells ∧ c.toUpper = Symbol.ofNat b) text bells

/-- The character at the place is the symbol of no bell. -/
def NoSymbolAt (text : List Char) (p : ℕ) : Prop :=
  ∃ c, text[p]? = some c ∧ ∀ b < maxBells, c.toUpper ≠ Symbol.ofNat b

theorem showsBells_iff {text : List Char} {bells : List ℕ} :
    ShowsBells text bells ↔ List.Forall₂ (fun c b => Symbol.number? c = some b) text bells := by
  simp only [ShowsBells, Symbol.number?_eq_some_iff]

theorem noSymbolAt_iff {text : List Char} {p : ℕ} :
    NoSymbolAt text p ↔ ∃ c, text[p]? = some c ∧ Symbol.number? c = none := by
  have none_iff (c : Char) : Symbol.number? c = none ↔
      ∀ b < maxBells, c.toUpper ≠ Symbol.ofNat b := by
    simp only [Option.eq_none_iff_forall_ne_some, ne_eq, Symbol.number?_eq_some_iff, not_and]
  simp only [NoSymbolAt, none_iff]

/-- A text that shows bells has no character which is no symbol. -/
theorem ShowsBells.not_noSymbolAt {text : List Char} {bells : List ℕ}
    (shows : ShowsBells text bells) (p : ℕ) : ¬ NoSymbolAt text p := by
  have numbered : text.map Symbol.number? = bells.map some := by
    rw [← List.forall₂_eq_eq_eq, List.forall₂_map_left_iff, List.forall₂_map_right_iff]
    exact showsBells_iff.1 shows
  rw [noSymbolAt_iff]
  rintro ⟨c, here, none⟩
  have mem := List.mem_map_of_mem (f := Symbol.number?) (List.mem_of_getElem? here)
  rw [numbered, none] at mem
  simp at mem

theorem ShowsBells.length_eq_stage {text : String} {bells : List ℕ}
    (shows : ShowsBells text.toList bells) (length : text.length = s.bells) :
    bells.length = s.bells := by
  rw [← shows.length_eq, String.length_toList, length]

theorem numbers_eq_ok_iff {place : ℕ} {text : List Char} {bs : List ℤ} :
    numbers place text = .ok bs ↔
      ∃ bells, ShowsBells text bells ∧ bs = bells.map Nat.cast := by
  simp only [showsBells_iff]
  induction text generalizing place bs with
  | nil => simp [numbers, eq_comm]
  | cons c text ih =>
    rw [numbers]
    cases known : Symbol.number? c with
    | none => simp [List.forall₂_cons_left_iff, known]
    | some b =>
      simp only [bind_eq_ok_iff, ih, List.forall₂_cons_left_iff, known]
      constructor
      · rintro ⟨_, ⟨bells, shows, rfl⟩, h⟩
        exact ⟨_, ⟨b, bells, rfl, shows, rfl⟩, (Except.ok.inj h).symm⟩
      · rintro ⟨_, ⟨_, bells, ⟨⟩, shows, rfl⟩, rfl⟩
        exact ⟨_, ⟨bells, shows, rfl⟩, rfl⟩

/-- The first character which is no symbol is refused, wherever the reading has begun. -/
theorem numbers_eq_error_iff_from (before rest : List Char) {f : RowFault} :
    numbers before.length rest = .error f ↔
      ∃ p c, IsLeast {p | before.length ≤ p ∧ NoSymbolAt (before ++ rest) p} p ∧
        (before ++ rest)[p]? = some c ∧ f = .unknownSymbol c p := by
  induction rest generalizing before with
  | nil =>
    refine ⟨fun h => (by cases h), ?_⟩
    rintro ⟨p, c, ⟨⟨le, -⟩, -⟩, here, -⟩
    rw [List.append_nil, List.getElem?_eq_none le] at here
    cases here
  | cons c rest ih =>
    have here : (before ++ c :: rest)[before.length]? = some c := by simp
    rw [numbers]
    cases known : Symbol.number? c with
    | none =>
      have noSymbol : NoSymbolAt (before ++ c :: rest) before.length :=
        noSymbolAt_iff.2 ⟨c, here, known⟩
      constructor
      · intro h
        exact ⟨_, c, (isLeast_from_iff noSymbol).2 rfl, here, (Except.error.inj h).symm⟩
      · rintro ⟨p, c', first, here', rfl⟩
        obtain rfl := (isLeast_from_iff noSymbol).1 first
        obtain rfl := Option.some_inj.1 (here.symm.trans here')
        rfl
    | some b =>
      have symbol : ¬ NoSymbolAt (before ++ c :: rest) before.length := by
        rw [noSymbolAt_iff, here]
        rintro ⟨_, ⟨⟩, none⟩
        simp [known] at none
      have next := ih (before ++ [c])
      rw [List.append_assoc, List.singleton_append, List.length_append,
        List.length_singleton] at next
      rw [setOf_from_succ symbol, ← next]
      cases numbers (before.length + 1) rest <;> simp [bind, Except.bind, pure, Except.pure]

theorem numbers_eq_error_iff {text : List Char} {f : RowFault} :
    numbers 0 text = .error f ↔
      ∃ p c, IsLeast {p | NoSymbolAt text p} p ∧ text[p]? = some c ∧ f = .unknownSymbol c p := by
  have read := @numbers_eq_error_iff_from [] text f
  simpa only [List.length_nil, Nat.zero_le, true_and, List.nil_append] using read

/-! ## Bells -/

/-- The stage does not have the bell at the place, or the bell rang before. -/
def OffendsAt (s : Stage) (bells : List ℕ) (p : ℕ) : Prop :=
  ∃ b, bells[p]? = some b ∧ (s.bells ≤ b ∨ b ∈ bells.take p)

/-- The fault of the bell `b` that offends at the place `p`. -/
def faultAt (s : Stage) (bells : List ℕ) (p b : ℕ) : RowFault :=
  if s.bells ≤ b then .outOfRange b p s
  else .repeated b (bells.idxOf b) p (missingFrom s (bells.map Nat.cast))

theorem mem_map_cast {bells : List ℕ} {b : ℕ} : (b : ℤ) ∈ bells.map Nat.cast ↔ b ∈ bells :=
  List.mem_map_of_injective fun _ _ => Int.natCast_inj.1

theorem idxOf_map_cast (bells : List ℕ) (b : ℕ) :
    (bells.map Nat.cast).idxOf (b : ℤ) = bells.idxOf b := by
  have same (x : ℕ) : ((x : ℤ) == (b : ℤ)) = (x == b) := by
    rw [Bool.eq_iff_iff, beq_iff_eq, beq_iff_eq, Int.natCast_inj]
  rw [List.idxOf, List.findIdx_map]
  exact congrArg (fun known => bells.findIdx known) (funext same)

theorem mem_missingFrom_map_cast {bells : List ℕ} {b : ℕ} :
    b ∈ missingFrom s (bells.map Nat.cast) ↔ b < s.bells ∧ b ∉ bells := by
  rw [missingFrom, List.mem_filter, List.mem_range, decide_eq_true_eq, mem_map_cast]

theorem pairwise_missingFrom (bs : List ℤ) : (missingFrom s bs).Pairwise (· < ·) :=
  List.pairwise_lt_range.filter _

/-- If a bell rings twice in as many places as the stage has bells, then another does not ring. -/
theorem exists_missing {bells : List ℕ} (length : bells.length = s.bells)
    (twice : ¬ bells.Nodup) : missingFrom s (bells.map Nat.cast) ≠ [] := by
  intro none
  have within : List.range s.bells ⊆ bells := fun b hb => by
    by_contra absent
    have := mem_missingFrom_map_cast.2 ⟨List.mem_range.1 hb, absent⟩
    simp [none] at this
  exact twice ((perm_range_of_subset length within).nodup_iff.1 List.nodup_range)

/-- A bell which offends is refused where the check has come to it. -/
theorem offence_of_offends {bells before rest : List ℕ} {b : ℕ}
    (whole : bells = before ++ b :: rest) (offends : s.bells ≤ b ∨ b ∈ before) :
    offence s (bells.map Nat.cast) (before.map Nat.cast) ((b :: rest).map Nat.cast) =
      some (faultAt s bells before.length b) := by
  rw [List.map_cons, offence, faultAt]
  by_cases beyond : s.bells ≤ b
  · rw [if_pos (by omega), if_pos beyond, List.length_map]
  · have rang := offends.resolve_left beyond
    rw [if_neg (by omega), if_pos (mem_map_cast.2 rang), if_neg beyond, List.length_map,
      idxOf_map_cast, whole, List.idxOf_append_of_mem rang]
    rfl

/-- The first bell that offends is refused, wherever the check has begun. -/
theorem offence_eq_some_iff {bells before rest : List ℕ} (whole : bells = before ++ rest)
    {f : RowFault} :
    offence s (bells.map Nat.cast) (before.map Nat.cast) (rest.map Nat.cast) = some f ↔
      ∃ p b, IsLeast {p | before.length ≤ p ∧ OffendsAt s bells p} p ∧ bells[p]? = some b ∧
        f = faultAt s bells p b := by
  induction rest generalizing before with
  | nil =>
    refine ⟨fun h => (by cases h), ?_⟩
    rintro ⟨p, b, ⟨⟨le, -⟩, -⟩, here, -⟩
    rw [whole, List.append_nil, List.getElem?_eq_none le] at here
    cases here
  | cons b rest ih =>
    have here : bells[before.length]? = some b := by simp [whole]
    have offends_iff : OffendsAt s bells before.length ↔ s.bells ≤ b ∨ b ∈ before := by
      simp [OffendsAt, whole]
    by_cases offends : s.bells ≤ b ∨ b ∈ before
    · have first := offends_iff.2 offends
      rw [offence_of_offends whole offends, Option.some_inj]
      constructor
      · rintro rfl
        exact ⟨_, b, (isLeast_from_iff first).2 rfl, here, rfl⟩
      · rintro ⟨p, b', least, stands, rfl⟩
        obtain rfl := (isLeast_from_iff first).1 least
        obtain rfl := Option.some_inj.1 (here.symm.trans stands)
        rfl
    · rw [not_or] at offends
      have next := @ih (before ++ [b]) (by simpa using whole)
      rw [List.length_append, List.length_singleton] at next
      rw [List.map_cons, offence, if_neg (by omega), if_neg (mt mem_map_cast.1 offends.2),
        setOf_from_succ (mt offends_iff.1 (not_or.2 offends)), ← next, List.map_append]
      rfl

/-- As many numbers as the stage has bells are refused with the first bell that offends. -/
theorem ofNumbers_eq_error_iff {bells : List ℕ} {f : RowFault} (length : bells.length = s.bells) :
    ofNumbers s (bells.map Nat.cast) = .error f ↔
      ∃ p b, IsLeast {p | OffendsAt s bells p} p ∧ bells[p]? = some b ∧
        f = faultAt s bells p b := by
  have scan := @offence_eq_some_iff s bells [] bells rfl f
  simp only [List.length_nil, Nat.zero_le, true_and, List.map_nil] at scan
  rw [← scan, ofNumbers, dif_pos (by simpa using length)]
  split <;> simp_all

/-! ## The first offence -/

/-- What is first wrong with a text as a row of the stage. -/
inductive FirstOffence (s : Stage) (text : String) : RowFault → Prop
  /-- The text is not as long as the stage. -/
  | length (wrong : text.length ≠ s.bells) : FirstOffence s text (.wrongLength text s)
  /-- The place is the first at which a character is no symbol. -/
  | symbol {p : ℕ} {c : Char} (length : text.length = s.bells)
      (first : IsLeast {p | NoSymbolAt text.toList p} p) (here : text.toList[p]? = some c) :
      FirstOffence s text (.unknownSymbol c p)
  /-- The place is the first at which a bell offends, and the stage does not have it. -/
  | beyond {bells : List ℕ} {p b : ℕ} (length : text.length = s.bells)
      (shows : ShowsBells text.toList bells) (first : IsLeast {p | OffendsAt s bells p} p)
      (here : bells[p]? = some b) (beyond : s.bells ≤ b) : FirstOffence s text (.outOfRange b p s)
  /-- The place is the first at which a bell offends, and it rang before; the bells told to be
  missing are all those that ring nowhere in the text. -/
  | again {bells missing : List ℕ} {p q b : ℕ} (length : text.length = s.bells)
      (shows : ShowsBells text.toList bells) (first : IsLeast {p | OffendsAt s bells p} p)
      (here : bells[p]? = some b) (before : q < p) (there : bells[q]? = some b)
      (some_missing : missing ≠ []) (ascending : missing.Pairwise (· < ·))
      (mem_missing : ∀ m, m ∈ missing ↔ m < s.bells ∧ m ∉ bells) :
      FirstOffence s text (.repeated b q p missing)

/-- Up to the first place at which a bell offends, each bell stands where it rings first. -/
theorem idxOf_eq_of_lt_first {bells : List ℕ} {p q b : ℕ}
    (first : IsLeast {p | OffendsAt s bells p} p) (before : q < p) (there : bells[q]? = some b) :
    bells.idxOf b = q := by
  have mem := List.mem_of_getElem? there
  have le : bells.idxOf b < q + 1 := by
    rw [← List.mem_take_iff_idxOf_lt mem, List.mem_take_iff_getElem]
    obtain ⟨lt, rfl⟩ := List.getElem?_eq_some_iff.1 there
    exact ⟨q, by omega, rfl⟩
  by_contra ne
  have again : b ∈ bells.take q := (List.mem_take_iff_idxOf_lt mem).2 (by omega)
  exact absurd (first.2 ⟨b, there, .inr again⟩) (Nat.not_le.2 before)

/-! ## Texts of rows -/

theorem lt_maxBells_of_mem (r : Row s) {b : ℕ} (h : b ∈ r.toList) : b < maxBells :=
  (mem_toList.1 h).trans_le s.le_max

theorem parse_of_length {text : String} (length : text.length = s.bells) :
    parse s text = numbers 0 text.toList >>= ofNumbers s := by
  rw [parse, if_pos length]

theorem parse_eq_ok_iff_showsBells {text : String} {r : Row s} :
    parse s text = .ok r ↔ ShowsBells text.toList r.toList := by
  constructor
  · intro h
    rw [parse] at h
    split at h
    · obtain ⟨bs, read, h⟩ := bind_eq_ok_iff.1 h
      obtain ⟨bells, shows, rfl⟩ := numbers_eq_ok_iff.1 read
      rwa [ofNumbers_map_cast.1 h]
    · cases h
  · intro shows
    have length : text.length = s.bells := by
      rw [← String.length_toList, shows.length_eq, length_toList]
    rw [parse_of_length length]
    exact bind_eq_ok_iff.2 ⟨_, numbers_eq_ok_iff.2 ⟨_, shows, rfl⟩, ofNumbers_map_cast.2 rfl⟩

/-- The row which a text shows is written as the text is in capitals. -/
theorem parse_eq_ok_iff {text : String} {r : Row s} :
    parse s text = .ok r ↔ r.text = text.toUpper := by
  have capitals : text.toUpper.toList = text.toList.map Char.toUpper := String.toList_map
  rw [parse_eq_ok_iff_showsBells, eq_comm, ← String.toList_inj, capitals, Row.text, symbols,
    String.toList_ofList, ← List.forall₂_eq_eq_eq, List.forall₂_map_left_iff,
    List.forall₂_map_right_iff]
  refine ⟨List.Forall₂.imp fun _ _ h => h.2, fun h => ?_⟩
  obtain ⟨length_eq, each⟩ := List.forall₂_iff_zip.1 h
  exact List.forall₂_iff_zip.2
    ⟨length_eq, fun mem => ⟨r.lt_maxBells_of_mem (List.of_mem_zip mem).2, each mem⟩⟩

/-- A text is a row of the stage if it shows each bell of the stage once, and has room for no
more. -/
theorem exists_parse_iff {text : String} : (∃ r, parse s text = .ok r) ↔
    text.length = s.bells ∧
      ∃ bells, ShowsBells text.toList bells ∧ bells.Perm (List.range s.bells) := by
  simp only [parse_eq_ok_iff_showsBells]
  constructor
  · rintro ⟨r, shows⟩
    refine ⟨by rw [← String.length_toList, shows.length_eq, length_toList], _, shows, ?_⟩
    rw [List.perm_ext_iff_of_nodup r.nodup_toList List.nodup_range]
    exact fun b => mem_toList.trans List.mem_range.symm
  · rintro ⟨-, bells, shows, perm⟩
    have once : Packed.IsRow s bells := ⟨by simpa using perm.length_eq, fun b hb =>
      List.count_eq_one_of_mem (perm.nodup_iff.2 List.nodup_range)
        (perm.mem_iff.2 (List.mem_range.2 hb))⟩
    obtain ⟨r, rfl⟩ := isRow_iff.1 once
    exact ⟨r, shows⟩

/-! ## Texts refused -/

theorem firstOffence_of_offendsAt {text : String} {bells : List ℕ} {p b : ℕ}
    (length : text.length = s.bells) (shows : ShowsBells text.toList bells)
    (first : IsLeast {p | OffendsAt s bells p} p) (here : bells[p]? = some b) :
    FirstOffence s text (faultAt s bells p b) := by
  rw [faultAt]
  split
  · exact .beyond length shows first here ‹_›
  · rename_i within
    have as_long := shows.length_eq_stage length
    obtain ⟨_, here', offends⟩ := first.1
    obtain rfl := Option.some_inj.1 (here.symm.trans here')
    have rang := offends.resolve_left within
    have mem := List.mem_of_mem_take rang
    have before := (List.mem_take_iff_idxOf_lt mem).1 rang
    have there := List.getElem?_idxOf mem
    have twice : ¬ bells.Nodup := fun nodup =>
      List.nodup_iff_getElem?_ne_getElem?.1 nodup _ _ before
        (List.getElem?_eq_some_iff.1 here).1 (there.trans here.symm)
    exact .again length shows first here before there (exists_missing as_long twice)
      (pairwise_missingFrom _) fun _ => mem_missingFrom_map_cast

theorem parse_of_offendsAt {text : String} {bells : List ℕ} {p b : ℕ}
    (length : text.length = s.bells) (shows : ShowsBells text.toList bells)
    (first : IsLeast {p | OffendsAt s bells p} p) (here : bells[p]? = some b) :
    parse s text = .error (faultAt s bells p b) := by
  have as_long := shows.length_eq_stage length
  rw [parse_of_length length, bind_eq_error_iff]
  exact .inr ⟨_, numbers_eq_ok_iff.2 ⟨bells, shows, rfl⟩,
    (ofNumbers_eq_error_iff as_long).2 ⟨p, b, first, here, rfl⟩⟩

/-- A text is refused with its first offence, and only with that. -/
theorem parse_eq_error_iff {text : String} {f : RowFault} :
    parse s text = .error f ↔ FirstOffence s text f := by
  constructor
  · intro h
    by_cases length : text.length = s.bells
    · rw [parse_of_length length, bind_eq_error_iff] at h
      obtain h | ⟨bs, read, h⟩ := h
      · obtain ⟨p, c, first, here, rfl⟩ := numbers_eq_error_iff.1 h
        exact .symbol length first here
      · obtain ⟨bells, shows, rfl⟩ := numbers_eq_ok_iff.1 read
        obtain ⟨p, b, first, here, rfl⟩ :=
          (ofNumbers_eq_error_iff (shows.length_eq_stage length)).1 h
        exact firstOffence_of_offendsAt length shows first here
    · rw [parse, if_neg length] at h
      obtain rfl := Except.error.inj h
      exact .length length
  · intro h
    cases h with
    | length wrong => rw [parse, if_neg wrong]
    | symbol length first here =>
      rw [parse_of_length length, bind_eq_error_iff]
      exact .inl (numbers_eq_error_iff.2 ⟨_, _, first, here, rfl⟩)
    | beyond length shows first here beyond =>
      rw [parse_of_offendsAt length shows first here, faultAt, if_pos beyond]
    | @again bells missing p q b length shows first here before there _ ascending mem_missing =>
      have within : ¬ s.bells ≤ b := fun beyond =>
        absurd (first.2 ⟨b, there, .inl beyond⟩) (Nat.not_le.2 before)
      have all : missingFrom s (bells.map Nat.cast) = missing :=
        (pairwise_missingFrom _).eq_of_mem_iff ascending fun m =>
          mem_missingFrom_map_cast.trans (mem_missing m).symm
      rw [parse_of_offendsAt length shows first here, faultAt, if_neg within,
        idxOf_eq_of_lt_first first before there, all]

/-- The kind of the first offence tells how far the text could be read. -/
theorem FirstOffence.kind_eq_iff {text : String} {f : RowFault} (h : FirstOffence s text f) :
    (f.kind = "length" ↔ text.length ≠ s.bells) ∧
    (f.kind = "unknown_symbol" ↔ text.length = s.bells ∧ ∃ p, NoSymbolAt text.toList p) ∧
    (f.kind = "out_of_range" ∨ f.kind = "duplicate" ↔
      text.length = s.bells ∧ ∃ bells, ShowsBells text.toList bells) := by
  cases h with
  | length wrong => simp [RowFault.kind, wrong]
  | symbol length first here =>
    have unread : ¬ ∃ bells, ShowsBells text.toList bells := fun ⟨_, shows⟩ =>
      shows.not_noSymbolAt _ first.1
    simp only [RowFault.kind, length, unread]
    exact ⟨by simp, by simpa using ⟨_, first.1⟩, by simp⟩
  | beyond length shows first here beyond =>
    have read : ∃ bells, ShowsBells text.toList bells := ⟨_, shows⟩
    simp [RowFault.kind, length, shows.not_noSymbolAt, read]
  | again length shows =>
    have read : ∃ bells, ShowsBells text.toList bells := ⟨_, shows⟩
    simp [RowFault.kind, length, shows.not_noSymbolAt, read]

/-! ## Texts without a stage -/

theorem stageOf_eq_ok_iff {count : ℕ} : stageOf count = .ok s ↔ count = s.bells := by
  rw [stageOf]
  constructor
  · intro h
    split at h
    · split at h
      · rw [← Except.ok.inj h]
      · cases h
    · cases h
  · rintro rfl
    rw [dif_pos s.pos, dif_pos s.le_max]

theorem stageOf_eq_error_iff {count : ℕ} {f : RowFault} : stageOf count = .error f ↔
    count = 0 ∧ f = .empty ∨ maxBells < count ∧ f = .tooMany count := by
  have thirtySix : maxBells = 36 := rfl
  grind [stageOf]

/-- A text is read as a row of the stage that has as many bells. -/
theorem parseAny_eq_ok_iff {text : String} {r : Row s} :
    parseAny text = .ok (.of r) ↔ parse s text = .ok r := by
  refine ⟨parse_of_parseAny, fun h => ?_⟩
  obtain ⟨length, -⟩ := exists_parse_iff.1 ⟨r, h⟩
  exact bind_eq_ok_iff.2 ⟨s, stageOf_eq_ok_iff.2 length, bind_eq_ok_iff.2 ⟨r, h, rfl⟩⟩

theorem parseAny_eq_ok_iff_text {text : String} {r : Staged Row} :
    parseAny text = .ok r ↔ r.val.text = text.toUpper := by
  obtain ⟨s, r⟩ := r
  exact parseAny_eq_ok_iff.trans parse_eq_ok_iff

/-- A text is a row of some stage if it shows as many bells as there may be, each once. -/
theorem exists_parseAny_iff {text : String} : (∃ r, parseAny text = .ok r) ↔
    (1 ≤ text.length ∧ text.length ≤ maxBells) ∧
      ∃ bells, ShowsBells text.toList bells ∧ bells.Perm (List.range text.length) := by
  constructor
  · rintro ⟨⟨s, r⟩, h⟩
    obtain ⟨length, shown⟩ := exists_parse_iff.1 ⟨r, parseAny_eq_ok_iff.1 h⟩
    rw [length]
    exact ⟨⟨s.pos, s.le_max⟩, shown⟩
  · rintro ⟨⟨pos, le⟩, shown⟩
    obtain ⟨r, h⟩ := (exists_parse_iff (s := ⟨text.length, pos, le⟩)).2 ⟨rfl, shown⟩
    exact ⟨_, parseAny_eq_ok_iff.2 h⟩

theorem parseAny_eq_error_iff {text : String} {f : RowFault} : parseAny text = .error f ↔
    text.length = 0 ∧ f = .empty ∨ maxBells < text.length ∧ f = .tooMany text.length ∨
      ∃ s : Stage, text.length = s.bells ∧ FirstOffence s text f := by
  simp only [parseAny, bind_eq_error_iff, stageOf_eq_error_iff, stageOf_eq_ok_iff, or_assoc,
    ← parse_eq_error_iff]
  simp [pure, Except.pure]

/-- A text for which there is no stage is refused for its length, and no other is. -/
theorem kind_eq_length_iff_of_parseAny {text : String} {f : RowFault}
    (h : parseAny text = .error f) :
    f.kind = "length" ↔ ¬ (1 ≤ text.length ∧ text.length ≤ maxBells) := by
  rcases parseAny_eq_error_iff.1 h with ⟨length, rfl⟩ | ⟨many, rfl⟩ | ⟨s, length, offence⟩
  · simp [RowFault.kind, length]
  · simp [RowFault.kind, many]
  · rw [offence.kind_eq_iff.1, length]
    simpa using ⟨s.pos, s.le_max⟩

/-! ## Rows read back -/

/-- A row is read back from its text, whose symbols are its bells. -/
theorem parse_text (r : Row s) : parse s r.text = .ok r := by
  rw [parse_eq_ok_iff_showsBells, Row.text, symbols, String.toList_ofList, ShowsBells,
    List.forall₂_map_left_iff, List.forall₂_same]
  intro b hb
  exact Symbol.number?_eq_some_iff.1 (Symbol.number?_ofNat (r.lt_maxBells_of_mem hb))

/-- A row is read back from its bells. -/
theorem ofNumbers_toList (r : Row s) : ofNumbers s (r.toList.map Nat.cast) = .ok r :=
  ofNumbers_map_cast.2 rfl

theorem ofNumbersAny_toList (r : Row s) :
    ofNumbersAny (r.toList.map Nat.cast) = .ok (.of r) := by
  refine bind_eq_ok_iff.2 ⟨s, stageOf_eq_ok_iff.2 (by simp), ?_⟩
  exact bind_eq_ok_iff.2 ⟨r, r.ofNumbers_toList, rfl⟩

/-- **Rows are read exactly, and the first offence of a text is told.**

* A text is read as a row of a stage just if it is as long as the stage and shows each of its bells
  once, by symbols in either case. The row is written as the text is in capitals.
* Any other text is refused with its first offence, and only with that: it is of the kind of a
  length if the length is wrong, else of an unknown symbol if there is one, and else of a bell.
* If no stage is given, then the text is read at the stage which has as many bells, and is refused
  for its length just if there is none.
* A row is read back from its text and from its bells, whether its stage is given or not. -/
theorem parse_reads_row_or_first_offence :
    (∀ (s : Stage) (text : String),
      ((∃ r, parse s text = .ok r) ↔ text.length = s.bells ∧
        ∃ bells, ShowsBells text.toList bells ∧ bells.Perm (List.range s.bells)) ∧
      (∀ r, parse s text = .ok r ↔ r.text = text.toUpper) ∧
      (∀ f, parse s text = .error f ↔ FirstOffence s text f) ∧
      ∀ f, FirstOffence s text f →
        (f.kind = "length" ↔ text.length ≠ s.bells) ∧
        (f.kind = "unknown_symbol" ↔ text.length = s.bells ∧ ∃ p, NoSymbolAt text.toList p) ∧
        (f.kind = "out_of_range" ∨ f.kind = "duplicate" ↔
          text.length = s.bells ∧ ∃ bells, ShowsBells text.toList bells)) ∧
    (∀ text : String,
      ((∃ r, parseAny text = .ok r) ↔ (1 ≤ text.length ∧ text.length ≤ 36) ∧
        ∃ bells, ShowsBells text.toList bells ∧ bells.Perm (List.range text.length)) ∧
      (∀ r, parseAny text = .ok r ↔ r.val.text = text.toUpper) ∧
      (∀ f, parseAny text = .error f ↔
        text.length = 0 ∧ f = .empty ∨ 36 < text.length ∧ f = .tooMany text.length ∨
          ∃ s : Stage, text.length = s.bells ∧ FirstOffence s text f) ∧
      ∀ f, parseAny text = .error f →
        (f.kind = "length" ↔ ¬ (1 ≤ text.length ∧ text.length ≤ 36))) ∧
    ∀ (s : Stage) (r : Row s),
      parse s r.text = .ok r ∧ parseAny r.text = .ok (.of r) ∧
      ofNumbers s (r.toList.map Nat.cast) = .ok r ∧
      ofNumbersAny (r.toList.map Nat.cast) = .ok (.of r) := by
  refine ⟨fun s text => ⟨exists_parse_iff, ?_, ?_, ?_⟩,
    fun text => ⟨exists_parseAny_iff, ?_, ?_, ?_⟩, fun s r => ⟨r.parse_text, ?_, ?_, ?_⟩⟩
  · exact fun r => parse_eq_ok_iff
  · exact fun f => parse_eq_error_iff
  · exact fun f offence => offence.kind_eq_iff
  · exact fun r => parseAny_eq_ok_iff_text
  · exact fun f => parseAny_eq_error_iff
  · exact fun f refused => kind_eq_length_iff_of_parseAny refused
  · exact parseAny_eq_ok_iff.2 r.parse_text
  · exact r.ofNumbers_toList
  · exact r.ofNumbersAny_toList

/-- At five bells: a bell that rings twice before one that the stage does not have is refused, and
told with the bells missing from the whole text; but a character that is no symbol comes first. -/
theorem parse_reads_row_or_first_offence_five_bells :
    let s : Stage := ⟨5, by decide, by decide⟩
    let twice : RowFault := .repeated 1 1 2 [2, 3, 4]
    (parse s "01191" = .error twice ∧ FirstOffence s "01191" twice ∧
      "01191".length = s.bells ∧ ∃ bells, ShowsBells "01191".toList bells) ∧
    (FirstOffence s "0119?" (.unknownSymbol '?' 4) ∧ ∃ p, NoSymbolAt "0119?".toList p) ∧
    FirstOffence s "0119" (.wrongLength "0119" s) ∧
    (parseAny "" = .error .empty ∧ ¬ (1 ≤ "".length ∧ "".length ≤ 36)) ∧
    parseAny (Row.rounds s).text = .ok (.of (.rounds s)) := by
  intro s twice
  obtain ⟨read, readAny, back⟩ := parse_reads_row_or_first_offence
  have refused : parse s "01191" = .error twice := rfl
  have first := ((read s "01191").2.2.1 twice).1 refused
  have unknown := ((read s "0119?").2.2.1 (.unknownSymbol '?' 4)).1 rfl
  have short := ((read s "0119").2.2.1 (.wrongLength "0119" s)).1 rfl
  have none : parseAny "" = .error .empty := rfl
  exact ⟨⟨refused, first, ((read s "01191").2.2.2 twice first).2.2.1 (.inr rfl)⟩,
    ⟨unknown, (((read s "0119?").2.2.2 _ unknown).2.1.1 rfl).2⟩, short,
    ⟨none, ((readAny "").2.2.2 _ none).1 rfl⟩, (back s (.rounds s)).2.1⟩

end Campanology.Row
