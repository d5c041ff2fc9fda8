import Campanology.Proofs.Change.Segment

/-!
# Where the tokens of a lead stand

To read a lead, its text is cut at the commas, each segment is relieved of the blanks and the sign
in front of it, and the body behind these is cut into lexemes; each piece keeps the index at which
it begins. What the pieces are is told here without the cutting. A segment is a run of characters
that are no commas, as long as it can be (`mem_withOffsets_splitOn_iff`), a body is what follows the
blanks and the sign in a segment (`BodyOf`, `exists_mem_blocks_iff`), and a word is a run of word
characters in a body, again as long as it can be (`WordOf`, `mem_lexemes_iff_runOf`).

Pieces that are cut one after another also stand one after another (`pairwise_blocks`,
`pairwise_lexemes`), each within what it is cut from.
-/

namespace Campanology.Change

variable {s : Stage}

/-! ## Parts and runs -/

namespace Piece

/-- The index behind a piece. -/
def stop (p : Piece) : ℕ := p.offset + p.chars.length

/-- A piece ends where another begins, or in front of it. -/
def Before (p q : Piece) : Prop := p.stop ≤ q.offset

/-- A piece is part of another, and begins at the index at which it stands there. -/
def PartOf (q p : Piece) : Prop :=
  ∃ before after, p.chars = before ++ (q.chars ++ after) ∧ q.offset = p.offset + before.length

/-- A piece is a part of which all characters are of the kind, while those next to it are not. -/
def RunOf (kind : Char → Bool) (q p : Piece) : Prop :=
  ∃ before after, p.chars = before ++ (q.chars ++ after) ∧ q.offset = p.offset + before.length ∧
    (∀ x ∈ q.chars, kind x) ∧ (∀ x ∈ before.getLast?, kind x = false) ∧
    ∀ x ∈ after.head?, kind x = false

theorem PartOf.trans {r q p : Piece} (h : r.PartOf q) (h' : q.PartOf p) : r.PartOf p := by
  obtain ⟨before, after, hr, start⟩ := h
  obtain ⟨before', after', hq, start'⟩ := h'
  refine ⟨before' ++ before, after ++ after', ?_, ?_⟩
  · rw [hq, hr]
    simp
  · rw [start, start', List.length_append, Nat.add_assoc]

/-- A part stands within the whole. -/
theorem PartOf.within {q p : Piece} (h : q.PartOf p) : p.offset ≤ q.offset ∧ q.stop ≤ p.stop := by
  obtain ⟨before, after, hp, start⟩ := h
  simp only [stop, hp, start, List.length_append]
  omega

theorem Before.of_partOf {q q' p p' : Piece} (h : p.Before p') (hq : q.PartOf p)
    (hq' : q'.PartOf p') : q.Before q' :=
  hq.within.2.trans (h.trans hq'.within.1)

/-- The characters of a part are those of the whole. -/
theorem PartOf.getElem? {q p : Piece} (h : q.PartOf p) {k : ℕ} (lt : k < q.chars.length) :
    p.chars[q.offset - p.offset + k]? = q.chars[k]? := by
  obtain ⟨before, after, hp, start⟩ := h
  rw [hp, start, Nat.add_sub_cancel_left, List.getElem?_append_right (Nat.le_add_right _ _),
    Nat.add_sub_cancel_left, List.getElem?_append_left lt]

theorem RunOf.partOf {kind : Char → Bool} {q p : Piece} (h : q.RunOf kind p) : q.PartOf p := by
  obtain ⟨before, after, whole, start, -⟩ := h
  exact ⟨before, after, whole, start⟩

theorem RunOf.kind {kind : Char → Bool} {q p : Piece} (h : q.RunOf kind p) :
    ∀ x ∈ q.chars, kind x := by
  obtain ⟨-, -, -, -, all, -⟩ := h
  exact all

end Piece

section Runs

variable {kind : Char → Bool} {run rest part : List Char} {x : Char} {i k : ℕ}

theorem runOf_mk_iff {text : List Char} : Piece.RunOf kind ⟨i, part⟩ ⟨k, text⟩ ↔
    ∃ before after, text = before ++ (part ++ after) ∧ i = k + before.length ∧
      (∀ y ∈ part, kind y) ∧ (∀ y ∈ before.getLast?, kind y = false) ∧
      ∀ y ∈ after.head?, kind y = false :=
  Iff.rfl

/-- Characters of one kind the first of which is of another kind are none. -/
theorem eq_nil_of_head? (all : ∀ y ∈ part, kind y) (begins : ∀ y ∈ part.head?, kind y = false) :
    part = [] := by
  by_contra ne
  have head := begins (part.head ne) (List.head?_eq_some_head ne)
  rw [all _ (List.head_mem ne)] at head
  cases head

theorem eq_nil_of_getLast? (all : ∀ y ∈ part, kind y)
    (ends : ∀ y ∈ part.getLast?, kind y = false) : part = [] := by
  by_contra ne
  have last := ends (part.getLast ne) (List.getLast?_eq_some_getLast ne)
  rw [all _ (List.getLast_mem ne)] at last
  cases last

/-- Characters of one kind with which a text begins that begins with another kind are none. -/
theorem eq_nil_of_append_eq_cons {after : List Char} (all : ∀ y ∈ part, kind y)
    (other : kind x = false) (whole : x :: rest = part ++ after) : part = [] := by
  refine eq_nil_of_head? all fun y hy => ?_
  have first := List.mem_head?_append_of_mem_head? (t := after) hy
  rw [← whole, List.head?_cons, Option.mem_some_iff] at first
  rwa [← first]

theorem mem_getLast?_append_cons_iff {y : Char} :
    y ∈ (run ++ x :: rest).getLast? ↔ y = rest.getLast?.getD x := by
  simp [List.getLast?_append, List.getLast?_cons, eq_comm]

/-- A text of one kind is its only run of that kind. -/
theorem runOf_iff_of_forall (all : ∀ y ∈ run, kind y) :
    Piece.RunOf kind ⟨i, part⟩ ⟨k, run⟩ ↔ i = k ∧ part = run := by
  rw [runOf_mk_iff]
  constructor
  · rintro ⟨before, after, rfl, rfl, -, ends, begins⟩
    simp only [List.forall_mem_append] at all
    obtain rfl := eq_nil_of_getLast? all.1 ends
    obtain rfl := eq_nil_of_head? all.2.2 begins
    simp
  · rintro ⟨rfl, rfl⟩
    exact ⟨[], [], by simp, rfl, all, by simp, by simp⟩

/-- The runs of a text are the one it begins with, up to the first character of another kind, and
those of the rest behind that character. -/
theorem runOf_append_cons_iff (all : ∀ y ∈ run, kind y) (other : kind x = false) :
    Piece.RunOf kind ⟨i, part⟩ ⟨k, run ++ x :: rest⟩ ↔
      i = k ∧ part = run ∨ Piece.RunOf kind ⟨i, part⟩ ⟨k + run.length + 1, rest⟩ := by
  rw [runOf_mk_iff, runOf_mk_iff]
  constructor
  · rintro ⟨before, after, whole, rfl, hpart, ends, begins⟩
    obtain ⟨c, rfl, tail⟩ | ⟨c, rfl, tail⟩ := List.append_eq_append_iff.1 whole
    · cases c with
      | nil =>
        -- the part would begin at `x`, so that it is none, and there is no run in front of it
        obtain rfl := eq_nil_of_append_eq_cons hpart other tail
        obtain rfl := eq_nil_of_getLast? all (by simpa using ends)
        exact .inl ⟨rfl, rfl⟩
      | cons y c =>
        obtain ⟨rfl, rfl⟩ := List.cons.inj tail
        refine .inr ⟨c, after, rfl, by simp; omega, hpart, fun z hz => ?_, begins⟩
        exact ends z (mem_getLast?_append_cons_iff.2 (by rw [Option.mem_def.1 hz]; rfl))
    · rw [List.forall_mem_append] at all
      obtain rfl := eq_nil_of_getLast? all.1 ends
      obtain ⟨d, rfl, rfl⟩ | ⟨d, rfl, tail'⟩ := List.append_eq_append_iff.1 tail
      · have none : d = [] := eq_nil_of_head? (List.forall_mem_append.1 all.2).2 fun y hy =>
          begins y (List.mem_head?_append_of_mem_head? hy)
        exact .inl ⟨rfl, by simp [none]⟩
      · have none := eq_nil_of_append_eq_cons (List.forall_mem_append.1 hpart).2 other tail'
        exact .inl ⟨rfl, by simp [none]⟩
  · rintro (⟨rfl, rfl⟩ | ⟨before, after, rfl, rfl, hpart, ends, begins⟩)
    · exact ⟨[], x :: rest, by simp, rfl, all, by simp, by simpa using other⟩
    · refine ⟨run ++ x :: before, after, by simp, by simp; omega, hpart, fun y hy => ?_, begins⟩
      rw [mem_getLast?_append_cons_iff.1 hy]
      cases last : before.getLast? with
      | none => exact other
      | some z => exact ends z last

/-- Where a character is of another kind, the runs are those of the rest behind it. -/
theorem runOf_cons_iff (ne : part ≠ []) (other : kind x = false) :
    Piece.RunOf kind ⟨i, part⟩ ⟨k, x :: rest⟩ ↔ Piece.RunOf kind ⟨i, part⟩ ⟨k + 1, rest⟩ := by
  have cut := @runOf_append_cons_iff kind [] rest part x i k (by simp) other
  simpa [ne] using cut

theorem not_runOf_nil (ne : part ≠ []) : ¬ Piece.RunOf kind ⟨i, part⟩ ⟨k, []⟩ := fun h =>
  ne ((runOf_iff_of_forall (by simp)).1 h).2

/-- Where a run is as long as it can be, the runs are this one and those of the rest. -/
theorem runOf_append_iff (ne : part ≠ []) (all : ∀ y ∈ run, kind y)
    (ends : ∀ y ∈ rest.head?, kind y = false) :
    Piece.RunOf kind ⟨i, part⟩ ⟨k, run ++ rest⟩ ↔
      i = k ∧ part = run ∨ Piece.RunOf kind ⟨i, part⟩ ⟨k + run.length, rest⟩ := by
  cases rest with
  | nil => simp [runOf_iff_of_forall all, not_runOf_nil ne]
  | cons x rest =>
    have other := ends x rfl
    rw [runOf_append_cons_iff all other, runOf_cons_iff ne other]

end Runs

/-! ## Segments -/

/-- Whether a character is part of a segment. -/
def isSegmentChar (x : Char) : Bool := x ≠ ','

theorem forall_isSegmentChar_iff {text : List Char} :
    (∀ x ∈ text, isSegmentChar x) ↔ ',' ∉ text := by
  simp only [isSegmentChar, decide_eq_true_eq]
  exact ⟨fun h mem => h _ mem rfl, fun h x hx same => h (same ▸ hx)⟩

/-- The parts between the commas of a text are its segments, each where it stands. -/
theorem mem_withOffsets_splitOn_iff {text : List Char} {offset : ℕ} {p : Piece} :
    p ∈ withOffsets offset (text.splitOn ',') ↔ p.RunOf isSegmentChar ⟨offset, text⟩ := by
  obtain ⟨i, part⟩ := p
  induction hn : text.length using Nat.strong_induction_on generalizing text offset with
  | _ n ih =>
    subst hn
    by_cases comma : ',' ∈ text
    · obtain ⟨run, rest, rfl, clear⟩ := List.eq_append_cons_of_mem comma
      have shorter : rest.length < (run ++ ',' :: rest).length := by
        rw [List.length_append, List.length_cons]
        omega
      rw [List.splitOn_append_cons_self_of_not_mem clear rest, withOffsets, List.mem_cons,
        @ih rest.length shorter rest (offset + run.length + 1) rfl,
        runOf_append_cons_iff (forall_isSegmentChar_iff.2 clear) rfl, Piece.mk.injEq]
    · rw [List.splitOn_eq_singleton comma, withOffsets, withOffsets, List.mem_singleton,
        runOf_iff_of_forall (forall_isSegmentChar_iff.2 comma), Piece.mk.injEq]

theorem pairwise_withOffsets (offset : ℕ) (parts : List (List Char)) :
    (∀ p ∈ withOffsets offset parts, offset ≤ p.offset) ∧
      (withOffsets offset parts).Pairwise Piece.Before := by
  induction parts generalizing offset with
  | nil => exact ⟨by simp [withOffsets], .nil⟩
  | cons part parts ih =>
    obtain ⟨low, apart⟩ := ih (offset + part.length + 1)
    refine ⟨List.forall_mem_cons.2 ⟨le_rfl, fun p hp => ?_⟩,
      List.pairwise_cons.2 ⟨fun p hp => ?_, apart⟩⟩
    · have := low p hp
      omega
    · have := low p hp
      simp only [Piece.Before, Piece.stop]
      omega

/-! ## Bodies -/

/-- The blanks and the sign of the mark stand in front of the body: the blanks go on as long as they
can, and there is no sign only if there is none to be seen. -/
structure Heads (blanks : List Char) (mark : Mark) (body : List Char) : Prop where
  blank : ∀ x ∈ blanks, Text.isBlank x
  ends : ∀ x ∈ (mark.sign ++ body).head?, Text.isBlank x = false
  unsigned : mark = .unmarked → ∀ x ∈ body.head?, x ≠ '&' ∧ x ≠ '+'

theorem exists_heads_body (text : List Char) :
    ∃ blanks mark body, text = blanks ++ (Mark.sign mark ++ body) ∧ Heads blanks mark body := by
  have whole : text = text.takeWhile Text.isBlank ++ text.dropWhile Text.isBlank :=
    List.takeWhile_append_dropWhile.symm
  have blank : ∀ x ∈ text.takeWhile Text.isBlank, Text.isBlank x := fun _ =>
    List.mem_takeWhile_imp
  have ends : ∀ x ∈ (text.dropWhile Text.isBlank).head?, Text.isBlank x = false := by
    intro x hx
    have := List.head?_dropWhile_not Text.isBlank text
    rwa [Option.mem_def.1 hx] at this
  rcases rest : text.dropWhile Text.isBlank with _ | ⟨x, body⟩
  · exact ⟨_, .unmarked, [], rest ▸ whole, blank, by simp [Mark.sign], by simp⟩
  rw [rest] at ends whole
  by_cases reflected : x = '&'
  · exact ⟨_, .reflected, body, by simpa [Mark.sign, reflected] using whole, blank,
      by simpa [Mark.sign, reflected] using ends, by simp⟩
  by_cases plain : x = '+'
  · exact ⟨_, .plain, body, by simpa [Mark.sign, plain] using whole, blank,
      by simpa [Mark.sign, plain] using ends, by simp⟩
  · exact ⟨_, .unmarked, x :: body, by simpa [Mark.sign] using whole, blank,
      by simpa [Mark.sign] using ends, by simp [reflected, plain]⟩

theorem markedBlock_of_heads {offset : ℕ} {blanks body : List Char} {mark : Mark}
    (h : Heads blanks mark body) : markedBlock ⟨offset, blanks ++ (mark.sign ++ body)⟩ =
      ⟨mark, ⟨offset + blanks.length + mark.sign.length, body⟩⟩ := by
  have rest : Text.trimStart (blanks ++ (mark.sign ++ body)) = mark.sign ++ body := by
    rw [Text.trimStart, List.dropWhile_append_of_pos h.blank]
    rcases first : mark.sign ++ body with _ | ⟨x, tail⟩
    · rfl
    · rw [List.dropWhile_cons_of_neg (by simp [h.ends x (by rw [first]; rfl)])]
  have start : offset + ((blanks ++ (mark.sign ++ body)).length - (mark.sign ++ body).length) =
      offset + blanks.length := by
    rw [List.length_append, Nat.add_sub_cancel]
  unfold markedBlock
  simp only [rest, start]
  cases mark with
  | reflected => rfl
  | plain => rfl
  | unmarked =>
    have unsigned := h.unsigned rfl
    simp only [Mark.sign, List.nil_append]
    split
    · exact absurd rfl (unsigned _ rfl).1
    · exact absurd rfl (unsigned _ rfl).2
    · rfl

/-- The body of a segment of the text: what follows the blanks and the sign. -/
def BodyOf (text : List Char) (body : Piece) : Prop :=
  ∃ start blanks mark,
    Piece.RunOf isSegmentChar ⟨start, blanks ++ (Mark.sign mark ++ body.chars)⟩ ⟨0, text⟩ ∧
      Heads blanks mark body.chars ∧ body.offset = start + blanks.length + mark.sign.length

theorem exists_mem_blocks_iff {text : List Char} {body : Piece} :
    (∃ b ∈ blocks text, b.body = body) ↔ BodyOf text body := by
  simp only [blocks, List.mem_map, mem_withOffsets_splitOn_iff]
  constructor
  · rintro ⟨_, ⟨⟨start, segment⟩, run, rfl⟩, rfl⟩
    obtain ⟨blanks, mark, body, rfl, h⟩ := exists_heads_body segment
    rw [markedBlock_of_heads h]
    exact ⟨start, blanks, mark, run, h, rfl⟩
  · rintro ⟨start, blanks, mark, run, h, offset⟩
    refine ⟨_, ⟨_, run, rfl⟩, ?_⟩
    rw [markedBlock_of_heads h, ← offset]

/-- A body is part of the segment of which it is. -/
theorem body_partOf (p : Piece) : (markedBlock p).body.PartOf p := by
  obtain ⟨offset, segment⟩ := p
  obtain ⟨blanks, mark, body, rfl, h⟩ := exists_heads_body segment
  rw [markedBlock_of_heads h]
  exact ⟨blanks ++ mark.sign, [], by simp, by simp [Nat.add_assoc]⟩

theorem pairwise_blocks (text : List Char) :
    (blocks text).Pairwise fun b c => b.body.Before c.body := by
  rw [blocks, List.pairwise_map]
  exact (pairwise_withOffsets 0 _).2.imp fun h => h.of_partOf (body_partOf _) (body_partOf _)

/-! ## Lexemes -/

/-- A lexeme is a cross symbol, or it consists of word characters. -/
theorem cross_or_word_of_mem_lexemes (text : List Char) : ∀ {offset : ℕ} {w : Piece},
    w ∈ lexemes s ⟨offset, text⟩ → (∃ x, w.chars = [x] ∧ isCrossSymbol s x) ∨
      w.chars ≠ [] ∧ ∀ x ∈ w.chars, isWordChar s x := by
  induction text using body_induction (s := s) with
  | nil =>
    intro offset w hw
    cases hw
  | separator x text hx ih =>
    intro offset w hw
    rw [lexemes_cons_separator hx] at hw
    exact ih hw
  | cross x text hx ih =>
    intro offset w hw
    rw [lexemes_cons_cross hx] at hw
    rcases List.mem_cons.1 hw with rfl | hw
    · exact .inl ⟨x, rfl, hx⟩
    · exact ih hw
  | word run text ne all ends ih =>
    intro offset w hw
    rw [lexemes_word_append ne all ends] at hw
    rcases List.mem_cons.1 hw with rfl | hw
    · exact .inr ⟨ne, all⟩
    · exact ih hw

/-- The words among the lexemes are the runs of word characters. -/
theorem mem_lexemes_iff_runOf {w : List Char} (ne : w ≠ []) (hw : ∀ x ∈ w, isWordChar s x)
    (text : List Char) : ∀ {offset i : ℕ}, ⟨i, w⟩ ∈ lexemes s ⟨offset, text⟩ ↔
      Piece.RunOf (isWordChar s) ⟨i, w⟩ ⟨offset, text⟩ := by
  induction text using body_induction (s := s) with
  | nil => simp [lexemes, not_runOf_nil ne]
  | separator x text hx ih =>
    intro offset i
    rw [lexemes_cons_separator hx, ih, runOf_cons_iff ne (isWordChar_of_isSeparator hx)]
  | cross x text hx ih =>
    intro offset i
    have other : w ≠ [x] := by
      rintro rfl
      have := hw x List.mem_cons_self
      rw [isWordChar_of_isCrossSymbol hx] at this
      cases this
    rw [lexemes_cons_cross hx, List.mem_cons, ih,
      runOf_cons_iff ne (isWordChar_of_isCrossSymbol hx)]
    simp [other]
  | word run text ne' all ends ih =>
    intro offset i
    rw [lexemes_word_append ne' all ends, List.mem_cons, ih, runOf_append_iff ne all ends,
      Piece.mk.injEq]

theorem partOf_append (k : ℕ) (run rest : List Char) :
    Piece.PartOf ⟨k + run.length, rest⟩ ⟨k, run ++ rest⟩ :=
  ⟨run, [], by simp, rfl⟩

/-- A run and pieces behind it are parts of the whole, and stand in it one after another. -/
theorem parts_cons {k : ℕ} {run rest : List Char} {ws : List Piece}
    (h : (∀ w ∈ ws, w.PartOf ⟨k + run.length, rest⟩) ∧ ws.Pairwise Piece.Before) :
    (∀ w ∈ ⟨k, run⟩ :: ws, w.PartOf ⟨k, run ++ rest⟩) ∧
      (⟨k, run⟩ :: ws).Pairwise Piece.Before := by
  refine ⟨List.forall_mem_cons.2 ⟨⟨[], rest, by simp, rfl⟩, fun w hw => ?_⟩,
    List.pairwise_cons.2 ⟨fun w hw => (h.1 w hw).within.1, h.2⟩⟩
  exact (h.1 w hw).trans (partOf_append k run rest)

/-- Lexemes are parts of the piece of which they are, and stand in it one after another. -/
theorem pairwise_lexemes (text : List Char) : ∀ offset : ℕ,
    (∀ w ∈ lexemes s ⟨offset, text⟩, w.PartOf ⟨offset, text⟩) ∧
      (lexemes s ⟨offset, text⟩).Pairwise Piece.Before := by
  induction text using body_induction (s := s) with
  | nil => simp [lexemes]
  | separator x text hx ih =>
    intro offset
    rw [lexemes_cons_separator hx]
    obtain ⟨parts, apart⟩ := ih (offset + 1)
    exact ⟨fun w hw => (parts w hw).trans (partOf_append offset [x] text), apart⟩
  | cross x text hx ih =>
    intro offset
    rw [lexemes_cons_cross hx]
    exact @parts_cons offset [x] text _ (ih (offset + 1))
  | word run text ne all ends ih =>
    intro offset
    rw [lexemes_word_append ne all ends]
    exact parts_cons (ih (offset + run.length))

/-! ## Tokens -/

/-- The lexemes of all bodies of a text. -/
def tokens (s : Stage) (text : List Char) : List Piece :=
  (blocks text).flatMap fun b => lexemes s b.body

/-- The tokens of a text are those in front of a block, those of its body, and those behind. -/
theorem tokens_of_cut {text : List Char} {before after : List NotatedBlock} {b : NotatedBlock}
    (cut : blocks text = before ++ b :: after) :
    tokens s text = (before.flatMap fun b => lexemes s b.body) ++
      (lexemes s b.body ++ after.flatMap fun b => lexemes s b.body) := by
  rw [tokens, cut, List.flatMap_append, List.flatMap_cons]

/-- The body of a block is part of the text. -/
theorem partOf_of_mem_blocks {text : List Char} {b : NotatedBlock} (hb : b ∈ blocks text) :
    b.body.PartOf ⟨0, text⟩ := by
  obtain ⟨segment, mem, rfl⟩ := List.mem_map.1 hb
  exact (body_partOf segment).trans (mem_withOffsets_splitOn_iff.1 mem).partOf

theorem partOf_of_mem_tokens {text : List Char} {w : Piece} (hw : w ∈ tokens s text) :
    w.PartOf ⟨0, text⟩ := by
  obtain ⟨b, hb, hw⟩ := List.mem_flatMap.1 hw
  exact ((pairwise_lexemes b.body.chars b.body.offset).1 w hw).trans (partOf_of_mem_blocks hb)

/-- A token ends behind its beginning. -/
theorem offset_lt_stop_of_mem_tokens {text : List Char} {w : Piece} (hw : w ∈ tokens s text) :
    w.offset < w.stop := by
  obtain ⟨b, -, hw⟩ := List.mem_flatMap.1 hw
  have ne : w.chars ≠ [] := by
    rcases cross_or_word_of_mem_lexemes b.body.chars hw with ⟨x, hx, -⟩ | ⟨ne, -⟩
    · simp [hx]
    · exact ne
  have := List.length_pos_iff.2 ne
  rw [Piece.stop]
  omega

/-- The tokens of a text stand one after another. -/
theorem pairwise_tokens (text : List Char) : (tokens s text).Pairwise Piece.Before := by
  refine List.pairwise_flatMap.2 ⟨fun b _ => (pairwise_lexemes b.body.chars b.body.offset).2, ?_⟩
  refine (pairwise_blocks text).imp fun {b c} h v hv w hw => h.of_partOf ?_ ?_
  · exact (pairwise_lexemes b.body.chars b.body.offset).1 v hv
  · exact (pairwise_lexemes c.body.chars c.body.offset).1 w hw

/-- The tokens behind a body end behind its beginning. -/
theorem offset_lt_stop_of_mem_behind {text : List Char} {before after : List NotatedBlock}
    {b : NotatedBlock} (cut : blocks text = before ++ b :: after) {w : Piece}
    (hw : w ∈ after.flatMap fun b => lexemes s b.body) : b.body.offset < w.stop := by
  have mem : w ∈ tokens s text := by
    rw [tokens_of_cut cut]
    exact List.mem_append_right _ (List.mem_append_right _ hw)
  obtain ⟨c, hc, hw⟩ := List.mem_flatMap.1 hw
  have apart := pairwise_blocks text
  rw [cut] at apart
  have behind := (List.pairwise_cons.1 (List.pairwise_append.1 apart).2.1).1 c hc
  have inside := ((pairwise_lexemes c.body.chars c.body.offset).1 w hw).within.1
  calc b.body.offset ≤ b.body.stop := Nat.le_add_right _ _
    _ ≤ c.body.offset := behind
    _ ≤ w.offset := inside
    _ < w.stop := offset_lt_stop_of_mem_tokens mem

/-- The tokens behind another end behind it. -/
theorem stop_le_stop_of_mem_behind {text : List Char} {before after : List Piece} {w : Piece}
    (cut : tokens s text = before ++ w :: after) : ∀ v ∈ after, w.stop ≤ v.stop := by
  intro v hv
  have apart := pairwise_tokens (s := s) text
  rw [cut] at apart
  exact ((List.pairwise_cons.1 (List.pairwise_append.1 apart).2.1).1 v hv).trans
    (Nat.le_add_right _ _)

/-- A word of the text: a run of word characters in the body of a segment. -/
def WordOf (s : Stage) (text : List Char) (w : Piece) : Prop :=
  w.chars ≠ [] ∧ ∃ body, BodyOf text body ∧ w.RunOf (isWordChar s) body

/-- The words of a text are its tokens, but for the crosses. -/
theorem wordOf_iff {text : List Char} {w : Piece} :
    WordOf s text w ↔ (w.chars ≠ [] ∧ ∀ x ∈ w.chars, isWordChar s x) ∧ w ∈ tokens s text := by
  rw [tokens, List.mem_flatMap]
  constructor
  · rintro ⟨ne, body, hbody, run⟩
    obtain ⟨b, hb, rfl⟩ := exists_mem_blocks_iff.2 hbody
    exact ⟨⟨ne, run.kind⟩, b, hb, (mem_lexemes_iff_runOf ne run.kind _).2 run⟩
  · rintro ⟨⟨ne, hw⟩, b, hb, mem⟩
    exact ⟨ne, b.body, exists_mem_blocks_iff.1 ⟨b, hb, rfl⟩, (mem_lexemes_iff_runOf ne hw _).1 mem⟩

end Campanology.Change
