import Campanology.Proofs.Change.Grammar

/-!
# The segments of a lead

A lead is written in segments, separated by commas. A segment has a mark and changes; it is rung as
its changes stand or, if it *turns*, with the same changes backwards after them, but for the last
(`Segment.rung`). It turns if it is marked so, or if it has company and is not marked otherwise.

`ShowsSegment` tells of which segment a text is the writing: there are blanks, the sign of the mark
and a body that shows the changes. A text is read as a lead if and only if each of the parts between
its commas is the writing of a segment, and then what is read is what the segments ring, one after
another (`parseLead_eq_ok_iff`).
-/

namespace Campanology.Change

variable {s : Stage}

/-- What stands in front of a body to mark it. -/
def Mark.sign : Mark → List Char
  | .unmarked => []
  | .reflected => ['&']
  | .plain => ['+']

/-- A segment of a lead: how it is marked, and the changes it shows. -/
structure Segment (s : Stage) where
  mark : Mark
  changes : List (Change s)
  ne : changes ≠ []

/-- Whether a text is the writing of a segment. -/
def ShowsSegment (s : Stage) (text : List Char) (b : Segment s) : Prop :=
  ∃ body, text.dropWhile Text.isBlank = b.mark.sign ++ body ∧ Shows s body b.changes

namespace Segment

/-- Whether a segment is rung backwards after it is rung; `company` tells whether it is not the only
one. -/
def turns (company : Bool) (b : Segment s) : Bool :=
  b.mark = .reflected || (company && b.mark ≠ .plain)

/-- The changes that are rung for a segment. -/
def rung (company : Bool) (b : Segment s) : List (Change s) :=
  if b.turns company then b.changes ++ b.changes.dropLast.reverse else b.changes

/-- A segment that turns is the same backwards. -/
theorem reverse_rung {company : Bool} {b : Segment s} (h : b.turns company) :
    (b.rung company).reverse = b.rung company := by
  obtain ⟨init, last, hb⟩ := (List.eq_nil_or_concat b.changes).resolve_left b.ne
  unfold rung
  rw [if_pos h, hb, List.concat_eq_append, List.dropLast_concat]
  simp

theorem length_rung {company : Bool} {b : Segment s} (h : b.turns company) :
    (b.rung company).length = 2 * b.changes.length - 1 := by
  have := List.length_pos_iff.2 b.ne
  unfold rung
  rw [if_pos h, List.length_append, List.length_reverse, List.length_dropLast]
  omega

end Segment

/-! ## Reading a segment -/

/-- Behind the blanks, a text is the sign of its mark and a body. -/
theorem sign_append_body (p : Piece) :
    p.chars.dropWhile Text.isBlank = (markedBlock p).mark.sign ++ (markedBlock p).body.chars := by
  unfold markedBlock Text.trimStart
  simp only
  split
  · rename_i hp
    rw [hp]
    rfl
  · rename_i hp
    rw [hp]
    rfl
  · rfl

/-- A body has neither sign in it, so that there is one way to take a sign off a text. -/
theorem markedBlock_of_sign_append {p : Piece} {mark : Mark} {body : List Char}
    {cs : List (Change s)} (shown : Shows s body cs)
    (hp : p.chars.dropWhile Text.isBlank = mark.sign ++ body) :
    (markedBlock p).mark = mark ∧ (markedBlock p).body.chars = body := by
  unfold markedBlock Text.trimStart
  rw [hp]
  cases mark with
  | unmarked =>
    simp only [Mark.sign, List.nil_append]
    split
    · exact absurd List.mem_cons_self (shown.not_mem (by simp))
    · exact absurd List.mem_cons_self (shown.not_mem (by simp))
    · exact ⟨rfl, rfl⟩
  | reflected => exact ⟨rfl, rfl⟩
  | plain => exact ⟨rfl, rfl⟩

theorem showsSegment_iff {p : Piece} {b : Segment s} :
    ShowsSegment s p.chars b ↔
      (markedBlock p).mark = b.mark ∧ Shows s (markedBlock p).body.chars b.changes := by
  constructor
  · rintro ⟨body, hp, shown⟩
    obtain ⟨hmark, hbody⟩ := markedBlock_of_sign_append shown hp
    exact ⟨hmark, hbody ▸ shown⟩
  · rintro ⟨hmark, shown⟩
    exact ⟨_, hmark ▸ sign_append_body p, shown⟩

theorem ringBlock_of_parseBlock {text : String} {company : Bool} {block : NotatedBlock}
    {b : Segment s} (hmark : block.mark = b.mark)
    (h : parseBlock s text block.body = .ok b.changes) :
    ringBlock s text company block = .ok (b.rung company) := by
  unfold ringBlock Segment.rung Segment.turns
  rw [h, hmark]
  cases b.mark with
  | unmarked => cases company <;> rfl
  | reflected => rfl
  | plain => cases company <;> rfl

/-- A block is rung without refusal if and only if it is the writing of a segment, which it then
rings. -/
theorem ringBlock_eq_ok_iff {text : String} {company : Bool} {p : Piece} {cs : List (Change s)} :
    ringBlock s text company (markedBlock p) = .ok cs ↔
      ∃ b, ShowsSegment s p.chars b ∧ b.rung company = cs := by
  simp only [showsSegment_iff]
  constructor
  · intro h
    obtain ⟨changes, hb, -⟩ := bind_eq_ok_iff.1 h
    obtain ⟨ne, shown⟩ := parseBlock_eq_ok_iff.1 hb
    let b : Segment s := ⟨(markedBlock p).mark, changes, ne⟩
    rw [ringBlock_of_parseBlock (b := b) rfl hb] at h
    exact ⟨b, ⟨rfl, shown⟩, Except.ok.inj h⟩
  · rintro ⟨b, ⟨hmark, shown⟩, rfl⟩
    exact ringBlock_of_parseBlock hmark (parseBlock_eq_ok_iff.2 ⟨b.ne, shown⟩)

/-! ## Reading a lead -/

theorem map_chars_withOffsets (offset : ℕ) (parts : List (List Char)) :
    (withOffsets offset parts).map Piece.chars = parts := by
  induction parts generalizing offset with
  | nil => rfl
  | cons part parts ih => rw [withOffsets, List.map_cons, ih]

theorem length_splitOn_comma {text : List Char} : 1 < (text.splitOn ',').length ↔ ',' ∈ text := by
  constructor
  · intro h
    by_contra hc
    rw [List.splitOn_eq_singleton hc] at h
    simp at h
  · intro h
    obtain ⟨before, after, rfl⟩ := List.append_of_mem h
    rw [List.splitOn_append_cons_self, List.length_append]
    have := List.length_pos_iff.2 (List.splitOn_ne_nil ',' before)
    have := List.length_pos_iff.2 (List.splitOn_ne_nil ',' after)
    omega

theorem forall₂_exists_iff {α β γ : Type} {R : α → β → Prop} {f : β → γ} {xs : List α}
    {zs : List γ} :
    List.Forall₂ (fun x z => ∃ y, R x y ∧ f y = z) xs zs ↔
      ∃ ys, List.Forall₂ R xs ys ∧ ys.map f = zs := by
  constructor
  · intro h
    induction h with
    | nil => exact ⟨[], .nil, rfl⟩
    | cons hx _ ih =>
      obtain ⟨y, hy, rfl⟩ := hx
      obtain ⟨ys, hys, rfl⟩ := ih
      exact ⟨y :: ys, .cons hy hys, rfl⟩
  · rintro ⟨ys, h, rfl⟩
    rw [List.forall₂_map_right_iff]
    exact h.imp fun x y hxy => ⟨y, hxy, rfl⟩

/-- The blocks of a text ring what the segments ring that stand between its commas. -/
theorem mapM_ringBlock_eq_ok_iff {text : String} {company : Bool} {parts : List (List (Change s))} :
    (blocks text.toList).mapM (ringBlock s text company) = .ok parts ↔
      ∃ segments, List.Forall₂ (ShowsSegment s) (text.toList.splitOn ',') segments ∧
        segments.map (Segment.rung company) = parts := by
  rw [mapM_eq_ok_iff, blocks, List.forall₂_map_left_iff]
  simp only [ringBlock_eq_ok_iff]
  rw [← forall₂_exists_iff]
  conv_rhs => rw [← map_chars_withOffsets 0 (text.toList.splitOn ','), List.forall₂_map_left_iff]

/-- A text of blanks shows no segment. -/
theorem not_all_isBlank {text : List Char} {segments : List (Segment s)}
    (h : List.Forall₂ (ShowsSegment s) (text.splitOn ',') segments) :
    text.all Text.isBlank = false := by
  rw [Bool.eq_false_iff]
  intro blank
  rw [List.all_eq_true] at blank
  have one : text.splitOn ',' = [text] := by
    refine List.splitOn_eq_singleton fun hc => ?_
    have := blank ',' hc
    revert this
    decide
  rw [one, List.forall₂_cons_left_iff] at h
  obtain ⟨b, _, ⟨body, hb, shown⟩, -⟩ := h
  have none : text.dropWhile Text.isBlank = [] := List.dropWhile_eq_nil_iff.2 blank
  rw [none] at hb
  have hbody : body = [] := (List.append_eq_nil_iff.1 hb.symm).2
  rw [hbody] at shown
  exact b.ne shown.eq_nil

/-- **A text is read as a lead if and only if segments stand between its commas**, and then what is
read is what they ring. -/
theorem parseLead_eq_ok_iff {text : String} {cs : List (Change s)} :
    parseLead s text = .ok cs ↔
      ∃ segments, List.Forall₂ (ShowsSegment s) (text.toList.splitOn ',') segments ∧
        segments.flatMap (Segment.rung (',' ∈ text.toList)) = cs := by
  have company : decide (1 < (blocks text.toList).length) = decide (',' ∈ text.toList) := by
    rw [decide_eq_decide, ← length_splitOn_comma, blocks, List.length_map,
      ← List.length_map Piece.chars, map_chars_withOffsets]
  unfold parseLead
  simp only [company]
  constructor
  · intro h
    split at h
    · cases h
    obtain ⟨parts, hparts, h⟩ := bind_eq_ok_iff.1 h
    obtain ⟨segments, shown, rfl⟩ := mapM_ringBlock_eq_ok_iff.1 hparts
    exact ⟨segments, shown, Except.ok.inj h⟩
  · rintro ⟨segments, shown, rfl⟩
    rw [if_neg (by simp [not_all_isBlank shown])]
    exact bind_eq_ok_iff.2 ⟨_, mapM_ringBlock_eq_ok_iff.2 ⟨segments, shown, rfl⟩, rfl⟩

end Campanology.Change
