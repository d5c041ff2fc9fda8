import Campanology.Proofs.Change.Rendering

/-!
# Blanks around a lead

Blanks count in different ways in front of a lead and behind it. In front of a segment they do not
count, whichever they are (`showsSegment_blanks_append`). Behind it they belong to the body, in
which only the separators show nothing (`shows_append_blanks_iff`). So a lead may be begun with any
blanks, and closed just with those that are separators (`parseLead_between_blanks`); there are
blanks which are none, and which make a lead unreadable when they stand behind it
(`parseLead_refuses_trailing_tab`).
-/

namespace Campanology.Change

variable {s : Stage}

/-! ## Separators behind a body -/

theorem shows_append_separators_iff {body gap : List Char} {cs : List (Change s)}
    (separates : ∀ x ∈ gap, isSeparator x) : Shows s (body ++ gap) cs ↔ Shows s body cs := by
  have none : ∀ {offset}, lexemes s ⟨offset, gap⟩ = [] := by
    induction gap with
    | nil => exact rfl
    | cons x gap ih =>
      rw [List.forall_mem_cons] at separates
      intro offset
      rw [lexemes_cons_separator separates.1]
      exact ih separates.2
  have apart : ∀ x ∈ body.getLast?, ∀ y ∈ gap.head?,
      (isWordChar s x && isWordChar s y) = false := by
    intro x _ y hy
    rw [isWordChar_of_isSeparator (separates y (List.mem_of_mem_head? hy)), Bool.and_false]
  have same : lexemes s ⟨0, body ++ gap⟩ = lexemes s ⟨0, body⟩ := by
    rw [lexemes_append apart, none, List.append_nil]
  constructor
  · intro h
    exact shows_of_forall₂_lexemes body (same ▸ forall₂_lexemes_of_shows h 0)
  · intro h
    exact shows_of_forall₂_lexemes (body ++ gap) (same.symm ▸ forall₂_lexemes_of_shows h 0)

/-- A blank behind a body is part of no change, and so shows nothing just if it is a separator. -/
theorem shows_append_blanks_iff {body blanks : List Char} {cs : List (Change s)}
    (blank : ∀ x ∈ blanks, Text.isBlank x) :
    Shows s (body ++ blanks) cs ↔ Shows s body cs ∧ ∀ x ∈ blanks, isSeparator x := by
  constructor
  · intro h
    have separates : ∀ x ∈ blanks, isSeparator x := fun x hx =>
      (h.isSymbol x (List.mem_append_right body hx)).resolve_right fun symbol =>
        Bool.false_ne_true (symbol.isBlank_eq_false.symm.trans (blank x hx))
    exact ⟨(shows_append_separators_iff separates).1 h, separates⟩
  · rintro ⟨h, separates⟩
    exact (shows_append_separators_iff separates).2 h

/-! ## Blanks around a segment -/

theorem showsSegment_blanks_append {blanks text : List Char} {b : Segment s}
    (blank : ∀ x ∈ blanks, Text.isBlank x) :
    ShowsSegment s (blanks ++ text) b ↔ ShowsSegment s text b := by
  rw [ShowsSegment, ShowsSegment, List.dropWhile_append_of_pos blank]

/-- The text of a segment does not consist of blanks. -/
theorem ShowsSegment.dropWhile_ne_nil {text : List Char} {b : Segment s}
    (h : ShowsSegment s text b) : text.dropWhile Text.isBlank ≠ [] := by
  intro none
  obtain ⟨body, hb, shown⟩ := h
  rw [none] at hb
  rw [(List.append_eq_nil_iff.1 hb.symm).2] at shown
  exact b.ne shown.eq_nil

theorem Mark.length_sign_le (mark : Mark) : mark.sign.length ≤ 1 := by
  cases mark <;> decide

theorem showsSegment_append_blanks {text blanks : List Char} {b : Segment s}
    (blank : ∀ x ∈ blanks, Text.isBlank x) : ShowsSegment s (text ++ blanks) b ↔
      ShowsSegment s text b ∧ ∀ x ∈ blanks, isSeparator x := by
  by_cases none : text.dropWhile Text.isBlank = []
  · have all : (text ++ blanks).dropWhile Text.isBlank = [] := by
      rw [List.dropWhile_append, none]
      exact List.dropWhile_eq_nil_iff.2 blank
    exact ⟨fun h => absurd all h.dropWhile_ne_nil, fun h => absurd none h.1.dropWhile_ne_nil⟩
  · have behind : (text ++ blanks).dropWhile Text.isBlank =
        text.dropWhile Text.isBlank ++ blanks := by
      rw [List.dropWhile_append, if_neg (by simpa using none)]
    simp only [ShowsSegment, behind]
    constructor
    · rintro ⟨body, hb, shown⟩
      -- the sign is no longer than one character, and so does not reach into the blanks behind
      have sign : b.mark.sign <+: text.dropWhile Text.isBlank :=
        List.prefix_of_prefix_length_le ⟨body, hb.symm⟩ (List.prefix_append _ _)
          (b.mark.length_sign_le.trans (List.length_pos_iff.2 none))
      obtain ⟨body', hb'⟩ := sign
      rw [← hb', List.append_assoc, List.append_cancel_left_eq] at hb
      rw [← hb, shows_append_blanks_iff blank] at shown
      exact ⟨⟨body', hb'.symm, shown.1⟩, shown.2⟩
    · rintro ⟨⟨body, hb, shown⟩, separates⟩
      exact ⟨body ++ blanks, by rw [hb, List.append_assoc],
        (shows_append_blanks_iff blank).2 ⟨shown, separates⟩⟩

/-! ## Blanks around a lead -/

theorem comma_not_mem {blanks : List Char} (blank : ∀ x ∈ blanks, Text.isBlank x) :
    ',' ∉ blanks := fun h => absurd (blank _ h) (by decide)

/-- Blanks in front of a text are in front of the first of the parts between its commas. -/
theorem splitOn_blanks_append {blanks : List Char} (blank : ∀ x ∈ blanks, Text.isBlank x)
    (text : List Char) : ∃ part parts, text.splitOn ',' = part :: parts ∧
      (blanks ++ text).splitOn ',' = (blanks ++ part) :: parts := by
  by_cases comma : ',' ∈ text
  · obtain ⟨part, rest, rfl, clear⟩ := List.eq_append_cons_of_mem comma
    refine ⟨part, rest.splitOn ',', List.splitOn_append_cons_self_of_not_mem clear rest, ?_⟩
    rw [← List.append_assoc, List.splitOn_append_cons_self_of_not_mem]
    simp [comma_not_mem blank, clear]
  · refine ⟨text, [], List.splitOn_eq_singleton comma, List.splitOn_eq_singleton ?_⟩
    simp [comma_not_mem blank, comma]

/-- Blanks behind a text are behind the last of the parts between its commas. -/
theorem splitOn_append_blanks {blanks : List Char} (blank : ∀ x ∈ blanks, Text.isBlank x)
    (text : List Char) : ∃ part parts, text.splitOn ',' = parts ++ [part] ∧
      (text ++ blanks).splitOn ',' = parts ++ [part ++ blanks] := by
  have clear := comma_not_mem blank
  by_cases comma : ',' ∈ text
  · obtain ⟨tail, rest, reversed, last⟩ := List.eq_append_cons_of_mem (List.mem_reverse.2 comma)
    have cut : text = rest.reverse ++ ',' :: tail.reverse := by
      rw [← List.reverse_reverse text, reversed]
      simp
    have closed : ',' ∉ tail.reverse := by simpa using last
    have closedBehind : ',' ∉ tail.reverse ++ blanks := by simp [last, clear]
    refine ⟨tail.reverse, rest.reverse.splitOn ',', ?_, ?_⟩
    · rw [cut, List.splitOn_append_cons_self, List.splitOn_eq_singleton closed]
    · rw [cut, List.append_assoc, List.cons_append, List.splitOn_append_cons_self,
        List.splitOn_eq_singleton closedBehind]
  · exact ⟨text, [], List.splitOn_eq_singleton comma,
      List.splitOn_eq_singleton (by simp [comma, clear])⟩

theorem forall₂_concat_iff {α β : Type} {R : α → β → Prop} {xs : List α} {x : α} {zs : List β} :
    List.Forall₂ R (xs ++ [x]) zs ↔ ∃ ys y, zs = ys ++ [y] ∧ List.Forall₂ R xs ys ∧ R x y := by
  constructor
  · intro h
    rw [← List.forall₂_reverse_iff, List.reverse_append, List.reverse_singleton,
      List.singleton_append, List.forall₂_cons_left_iff] at h
    obtain ⟨y, ys, hx, hxs, reversed⟩ := h
    refine ⟨ys.reverse, y, ?_, ?_, hx⟩
    · rw [← List.reverse_cons, ← reversed, List.reverse_reverse]
    · rwa [← List.forall₂_reverse_iff, List.reverse_reverse]
  · rintro ⟨ys, y, rfl, hxs, hx⟩
    exact List.rel_append hxs (.cons hx .nil)

/-- **Blanks may stand in front of a lead, whichever they are, and separators behind it.** Neither
changes what the lead is. No other blanks may stand behind a lead. -/
theorem parseLead_between_blanks (text : String) (blanks : List Char)
    (blank : ∀ x ∈ blanks, Text.isBlank x) (cs : List (Change s)) :
    (parseLead s (String.ofList blanks ++ text) = .ok cs ↔ parseLead s text = .ok cs) ∧
    (parseLead s (text ++ String.ofList blanks) = .ok cs ↔
      parseLead s text = .ok cs ∧ ∀ x ∈ blanks, isSeparator x) := by
  have clear := comma_not_mem blank
  constructor
  · obtain ⟨part, parts, whole, front⟩ := splitOn_blanks_append blank text.toList
    have same : decide (',' ∈ blanks ++ text.toList) = decide (',' ∈ text.toList) := by
      simp [clear]
    rw [parseLead_eq_ok_iff, parseLead_eq_ok_iff, String.toList_append, String.toList_ofList, same,
      whole, front]
    simp only [List.forall₂_cons_left_iff, showsSegment_blanks_append blank]
  · obtain ⟨part, parts, whole, behind⟩ := splitOn_append_blanks blank text.toList
    have same : decide (',' ∈ text.toList ++ blanks) = decide (',' ∈ text.toList) := by
      simp [clear]
    rw [parseLead_eq_ok_iff, parseLead_eq_ok_iff, String.toList_append, String.toList_ofList, same,
      whole, behind]
    simp only [forall₂_concat_iff, showsSegment_append_blanks blank]
    constructor
    · rintro ⟨_, ⟨bs, b, rfl, hparts, hpart, separates⟩, rung⟩
      exact ⟨⟨_, ⟨bs, b, rfl, hparts, hpart⟩, rung⟩, separates⟩
    · rintro ⟨⟨_, ⟨bs, b, rfl, hparts, hpart⟩, rung⟩, separates⟩
      exact ⟨_, ⟨bs, b, rfl, hparts, hpart, separates⟩, rung⟩

/-- At six bells: a cross with blanks around it, of which those behind it are separators. -/
theorem parseLead_between_blanks_six_bells :
    let s : Stage := ⟨6, by decide, by decide⟩
    let front := ['\x0b', ' ', '\u2003']
    let behind := [' ', '\t', '\n']
    ((∀ x ∈ front, Text.isBlank x) ∧ parseLead s (String.ofList front ++ "-") = .ok [cross s]) ∧
      (∀ x ∈ behind, Text.isBlank x) ∧
        parseLead s ("-" ++ String.ofList behind) = .ok [cross s] := by
  intro s front behind
  have read : parseLead s "-" = .ok [cross s] := rfl
  have blankFront : ∀ x ∈ front, Text.isBlank x := List.all_eq_true.1 rfl
  have blankBehind : ∀ x ∈ behind, Text.isBlank x := List.all_eq_true.1 rfl
  have separates : ∀ x ∈ behind, isSeparator x := List.all_eq_true.1 rfl
  exact ⟨⟨blankFront, (parseLead_between_blanks "-" front blankFront _).1.2 read⟩, blankBehind,
    (parseLead_between_blanks "-" behind blankBehind _).2.2 ⟨read, separates⟩⟩

/-- A vertical tab is a blank, and yet it is taken for a place where it stands behind a lead. -/
theorem parseLead_refuses_trailing_tab :
    let s : Stage := ⟨6, by decide, by decide⟩
    Text.isBlank '\x0b' = true ∧ parseLead s "-" = .ok [cross s] ∧
      parseLead s ("\x0b" ++ "-") = .ok [cross s] ∧
      parseLead s ("-" ++ "\x0b") = .error ⟨.unknownPlace '\x0b', "-\x0b", "\x0b", 1⟩ :=
  ⟨rfl, rfl, rfl, rfl⟩

end Campanology.Change
