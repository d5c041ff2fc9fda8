import Campanology.Proofs.Change.Segment

/-!
# Writing the segments of a lead

A change is written by a token that is parsed to it, after any separators, of which there is at
least one between two tokens neither of which is a cross symbol (`WrittenChange.Apart`). A segment
is written by blanks, the sign of its mark, its changes and more separators (`WrittenSegment`), and
a lead by its segments with commas between them (`renderSegments`).

Each writing is read back, since what stands between its commas shows its segments
(`forall₂_splitOn_renderSegments`), and no other text shows segments (`exists_renderSegments`), so
that the texts which are read are the writings (`parseLead_eq_ok_iff_renderSegments`).
-/

namespace Campanology.Change

variable {s : Stage}

/-- A change in writing: separators, and a token that is parsed to the change. -/
structure WrittenChange (s : Stage) where
  gap : List Char
  token : List Char
  change : Change s
  separates : ∀ x ∈ gap, isSeparator x
  parsed : parse s (String.ofList token) = .ok change

namespace WrittenChange

def chars (w : WrittenChange s) : List Char := w.gap ++ w.token

/-- Whether a change is written by a cross symbol. -/
def IsCross (w : WrittenChange s) : Prop := ∃ x, w.token = [x] ∧ isCrossSymbol s x

/-- Whether a change and the next one are kept apart. -/
def Apart (w w' : WrittenChange s) : Prop := w'.gap ≠ [] ∨ w.IsCross ∨ w'.IsCross

end WrittenChange

/-- A segment in writing. -/
structure WrittenSegment (s : Stage) where
  blanks : List Char
  mark : Mark
  written : List (WrittenChange s)
  trail : List Char
  blank : ∀ x ∈ blanks, Text.isBlank x
  ne : written ≠ []
  apart : written.IsChain WrittenChange.Apart
  separates : ∀ x ∈ trail, isSeparator x

namespace WrittenSegment

def chars (w : WrittenSegment s) : List Char :=
  w.blanks ++ (w.mark.sign ++ (w.written.flatMap WrittenChange.chars ++ w.trail))

/-- The segment that is written. -/
def segment (w : WrittenSegment s) : Segment s where
  mark := w.mark
  changes := w.written.map WrittenChange.change
  ne := by simp [w.ne]

end WrittenSegment

/-- The text of segments in writing. -/
def renderSegments (ws : List (WrittenSegment s)) : String :=
  String.ofList ([','].intercalate (ws.map WrittenSegment.chars))

/-! ## Bodies -/

theorem Shows.gap_append {gap text : List Char} {cs : List (Change s)}
    (hgap : ∀ x ∈ gap, isSeparator x) (h : Shows s text cs) : Shows s (gap ++ text) cs := by
  induction gap with
  | nil => exact h
  | cons x gap ih =>
    rw [List.forall_mem_cons] at hgap
    exact .separator hgap.1 (ih hgap.2)

namespace WrittenChange

/-- A token that is no cross symbol consists of word characters. -/
theorem isCross_or (w : WrittenChange s) :
    (∃ x, w.token = [x] ∧ isCrossSymbol s x ∧ w.change = cross s) ∨
      (¬ w.IsCross ∧ ∀ x ∈ w.token, isWordChar s x) := by
  rcases number?_of_parse w.parsed with hw | hw
  · exact .inl hw
  right
  constructor
  · rintro ⟨x, hx, hcross⟩
    have := (hw x (hx ▸ List.mem_singleton_self x)).1
    rw [hcross] at this
    cases this
  · intro x hx
    exact isWordChar_of_number? (hw x hx).1 (hw x hx).2

/-- What follows a run of word characters and is kept apart from it does not go on with it. -/
theorem Apart.head? {w w' : WrittenChange s} (h : w.Apart w') (hw : ¬ w.IsCross)
    (text : List Char) : ∀ x ∈ (w'.chars ++ text).head?, isWordChar s x = false := by
  intro x hx
  cases hgap : w'.gap with
  | cons y gap =>
    have hy : y = x := by simpa [chars, hgap] using hx
    exact isWordChar_of_isSeparator (w'.separates x (by simp [hgap, hy]))
  | nil =>
    rcases h with h | h | ⟨y, hy, hcross⟩
    · exact absurd hgap h
    · exact absurd h hw
    · have hyx : y = x := by simpa [chars, hgap, hy] using hx
      exact isWordChar_of_isCrossSymbol (hyx ▸ hcross)

theorem apart_of_head? {w w' : WrittenChange s} {text : List Char}
    (h : ∀ x ∈ (w'.chars ++ text).head?, isWordChar s x = false) : w.Apart w' := by
  by_cases hgap : w'.gap = []
  · rcases w'.isCross_or with ⟨x, hx, hcross, -⟩ | ⟨-, word⟩
    · exact .inr (.inr ⟨x, hx, hcross⟩)
    · obtain ⟨x, token, hx⟩ := List.exists_cons_of_ne_nil (ne_nil_of_parse w'.parsed)
      have hfalse := h x (by simp [chars, hgap, hx])
      rw [word x (by simp [hx])] at hfalse
      cases hfalse
  · exact .inl hgap

end WrittenChange

theorem shows_written {written : List (WrittenChange s)} {trail : List Char}
    (apart : written.IsChain WrittenChange.Apart) (htrail : ∀ x ∈ trail, isSeparator x) :
    Shows s (written.flatMap WrittenChange.chars ++ trail) (written.map WrittenChange.change) := by
  induction written with
  | nil =>
    have := Shows.gap_append htrail (Shows.nil (s := s))
    simpa using this
  | cons w written ih =>
    have rest := ih apart.tail
    rw [List.flatMap_cons, List.map_cons, WrittenChange.chars, List.append_assoc, List.append_assoc]
    refine Shows.gap_append w.separates ?_
    rcases w.isCross_or with ⟨x, hx, hcross, hc⟩ | ⟨hw, word⟩
    · rw [hx, hc]
      exact .cross hcross rest
    · refine .word word ?_ w.parsed rest
      cases written with
      | nil =>
        intro x hx
        exact isWordChar_of_isSeparator (htrail x (List.mem_of_mem_head? (by simpa using hx)))
      | cons w' written =>
        rw [List.flatMap_cons, List.append_assoc]
        exact (List.isChain_cons_cons.1 apart).1.head? hw _

/-- A body is the writing of the changes it shows. -/
theorem Shows.exists_written {text : List Char} {cs : List (Change s)} (h : Shows s text cs) :
    ∃ (written : List (WrittenChange s)) (trail : List Char),
      written.IsChain WrittenChange.Apart ∧ (∀ x ∈ trail, isSeparator x) ∧
        written.flatMap WrittenChange.chars ++ trail = text ∧
        written.map WrittenChange.change = cs := by
  induction h with
  | nil => exact ⟨[], [], .nil, by simp, rfl, rfl⟩
  | @separator x text cs hx _ ih =>
    obtain ⟨written, trail, apart, htrail, rfl, rfl⟩ := ih
    cases written with
    | nil => exact ⟨[], x :: trail, .nil, List.forall_mem_cons.2 ⟨hx, htrail⟩, rfl, rfl⟩
    | cons w written =>
      let w' : WrittenChange s :=
        ⟨x :: w.gap, w.token, w.change, List.forall_mem_cons.2 ⟨hx, w.separates⟩, w.parsed⟩
      refine ⟨w' :: written, trail, ?_, htrail, rfl, rfl⟩
      rw [List.isChain_cons] at apart ⊢
      exact apart
  | @cross x text cs hx _ ih =>
    obtain ⟨written, trail, apart, htrail, rfl, rfl⟩ := ih
    let w : WrittenChange s := ⟨[], [x], Change.cross s, by simp, parse_cross hx⟩
    refine ⟨w :: written, trail, List.isChain_cons.2 ⟨?_, apart⟩, htrail, rfl, rfl⟩
    intro w' _
    exact .inr (.inl ⟨x, rfl, hx⟩)
  | @word token text c cs hw hend hc _ ih =>
    obtain ⟨written, trail, apart, htrail, rfl, rfl⟩ := ih
    let w : WrittenChange s := ⟨[], token, c, by simp, hc⟩
    refine ⟨w :: written, trail, List.isChain_cons.2 ⟨?_, apart⟩, htrail, ?_, rfl⟩
    · intro w' hw'
      obtain ⟨rest, rfl⟩ := List.head?_eq_some_iff.1 (Option.mem_def.1 hw')
      rw [List.flatMap_cons, List.append_assoc] at hend
      exact WrittenChange.apart_of_head? hend
    · simp [w, WrittenChange.chars]

/-! ## Segments -/

theorem Mark.forall_mem_sign {mark : Mark} : ∀ x ∈ mark.sign, x ∈ ['&', '+'] := by
  cases mark <;> simp [sign]

theorem WrittenSegment.shows (w : WrittenSegment s) : ShowsSegment s w.chars w.segment := by
  have body := shows_written w.apart w.separates
  unfold ShowsSegment WrittenSegment.chars WrittenSegment.segment
  rw [List.dropWhile_append_of_pos w.blank]
  cases w.mark with
  | unmarked => exact ⟨_, rfl, body.dropWhile_isBlank⟩
  | reflected => exact ⟨_, rfl, body⟩
  | plain => exact ⟨_, rfl, body⟩

theorem WrittenSegment.comma_not_mem (w : WrittenSegment s) : ',' ∉ w.chars := by
  unfold chars
  rw [List.mem_append, List.mem_append, not_or, not_or]
  refine ⟨fun h => ?_, fun h => ?_, (shows_written w.apart w.separates).not_mem (by simp)⟩
  · have := w.blank _ h
    revert this
    decide
  · have := Mark.forall_mem_sign _ h
    revert this
    decide

/-- The writing of a lead is cut at its commas into the writings of its segments. -/
theorem splitOn_renderSegments {ws : List (WrittenSegment s)} (ne : ws ≠ []) :
    (renderSegments ws).toList.splitOn ',' = ws.map WrittenSegment.chars := by
  rw [renderSegments, String.toList_ofList]
  refine List.splitOn_intercalate ',' ?_ (by simpa using ne)
  intro chars hchars
  obtain ⟨w, -, rfl⟩ := List.mem_map.1 hchars
  exact w.comma_not_mem

theorem forall₂_splitOn_renderSegments {ws : List (WrittenSegment s)} (ne : ws ≠ []) :
    List.Forall₂ (ShowsSegment s) ((renderSegments ws).toList.splitOn ',')
      (ws.map WrittenSegment.segment) := by
  rw [splitOn_renderSegments ne, List.forall₂_map_left_iff, List.forall₂_map_right_iff]
  exact List.forall₂_same.2 fun w _ => w.shows

theorem comma_mem_renderSegments {ws : List (WrittenSegment s)} (ne : ws ≠ []) :
    ',' ∈ (renderSegments ws).toList ↔ 1 < ws.length := by
  rw [← length_splitOn_comma, splitOn_renderSegments ne, List.length_map]

/-! ## Texts that show segments -/

theorem ShowsSegment.exists_written {text : List Char} {b : Segment s} (h : ShowsSegment s text b) :
    ∃ w : WrittenSegment s, w.chars = text ∧ w.segment = b := by
  obtain ⟨body, htext, shown⟩ := h
  obtain ⟨written, trail, apart, htrail, hbody, hcs⟩ := shown.exists_written
  have ne : written ≠ [] := by
    rintro rfl
    exact b.ne hcs.symm
  let w : WrittenSegment s :=
    ⟨text.takeWhile Text.isBlank, b.mark, written, trail, fun _ => List.mem_takeWhile_imp, ne,
      apart, htrail⟩
  refine ⟨w, ?_, ?_⟩
  · change text.takeWhile Text.isBlank ++ (b.mark.sign ++ (written.flatMap _ ++ trail)) = text
    rw [hbody, ← htext, List.takeWhile_append_dropWhile]
  · obtain ⟨mark, changes, _⟩ := b
    subst hcs
    rfl

/-- A text that shows segments is their writing. -/
theorem exists_renderSegments {text : String} {segments : List (Segment s)}
    (h : List.Forall₂ (ShowsSegment s) (text.toList.splitOn ',') segments) :
    ∃ ws, renderSegments ws = text ∧ ws.map WrittenSegment.segment = segments := by
  have written : ∃ ws : List (WrittenSegment s),
      ws.map WrittenSegment.chars = text.toList.splitOn ',' ∧
        ws.map WrittenSegment.segment = segments := by
    generalize text.toList.splitOn ',' = parts at h
    induction h with
    | nil => exact ⟨[], rfl, rfl⟩
    | cons hb _ ih =>
      obtain ⟨w, rfl, rfl⟩ := hb.exists_written
      obtain ⟨ws, rfl, rfl⟩ := ih
      exact ⟨w :: ws, rfl, rfl⟩
  obtain ⟨ws, hchars, hsegments⟩ := written
  refine ⟨ws, ?_, hsegments⟩
  rw [renderSegments, hchars, List.intercalate_splitOn, String.ofList_toList]

/-! ## Block notation -/

theorem parseLead_renderSegments {ws : List (WrittenSegment s)} (ne : ws ≠ []) :
    parseLead s (renderSegments ws) =
      .ok ((ws.map WrittenSegment.segment).flatMap (Segment.rung (1 < ws.length))) := by
  refine parseLead_eq_ok_iff.2 ⟨_, forall₂_splitOn_renderSegments ne, ?_⟩
  simp only [comma_mem_renderSegments ne]

/-- The texts that are read as a lead are the writings of segments which ring it. -/
theorem parseLead_eq_ok_iff_renderSegments {text : String} {cs : List (Change s)} :
    parseLead s text = .ok cs ↔
      ∃ ws, ws ≠ [] ∧ renderSegments ws = text ∧
        (ws.map WrittenSegment.segment).flatMap (Segment.rung (1 < ws.length)) = cs := by
  constructor
  · intro h
    obtain ⟨segments, shown, _⟩ := parseLead_eq_ok_iff.1 h
    obtain ⟨ws, rfl, rfl⟩ := exists_renderSegments shown
    have ne : ws ≠ [] := by
      rintro rfl
      exact List.splitOn_ne_nil _ _ (List.forall₂_nil_right_iff.1 shown)
    rw [parseLead_renderSegments ne] at h
    exact ⟨ws, ne, rfl, Except.ok.inj h⟩
  · rintro ⟨ws, ne, rfl, rfl⟩
    exact parseLead_renderSegments ne

/-- **Block notation is read by its grammar.** A text is read if and only if the parts between its
commas show segments, and what is read is what these ring, of which each that turns is the same
backwards and has one change less than twice what it shows. Each writing of segments shows them, and
is read. -/
theorem parseLead_reads_block_notation (s : Stage) :
    (∀ (text : String) (cs : List (Change s)), parseLead s text = .ok cs ↔
      ∃ segments, List.Forall₂ (ShowsSegment s) (text.toList.splitOn ',') segments ∧
        segments.flatMap (Segment.rung (',' ∈ text.toList)) = cs) ∧
    (∀ (company : Bool) (b : Segment s), b.turns company →
      (b.rung company).reverse = b.rung company ∧
        (b.rung company).length = 2 * b.changes.length - 1) ∧
    (∀ ws : List (WrittenSegment s), ws ≠ [] →
      List.Forall₂ (ShowsSegment s) ((renderSegments ws).toList.splitOn ',')
        (ws.map WrittenSegment.segment) ∧
      parseLead s (renderSegments ws) =
        .ok ((ws.map WrittenSegment.segment).flatMap (Segment.rung (1 < ws.length)))) := by
  refine ⟨fun _ _ => parseLead_eq_ok_iff, ?_, ?_⟩
  · intro company b h
    exact ⟨Segment.reverse_rung h, Segment.length_rung h⟩
  · intro ws ne
    have read := parseLead_eq_ok_iff_renderSegments.2 ⟨ws, ne, rfl, rfl⟩
    exact ⟨forall₂_splitOn_renderSegments ne, read⟩

/-- At three bells, a turning segment after a blank, and one that is rung as it stands. -/
theorem parseLead_reads_block_notation_three_bells :
    let s : Stage := ⟨3, by decide, by decide⟩
    let lead : Change s := ofPaired s (· = 0) (by decide)
    ∃ w w' : WrittenSegment s, [w, w'] ≠ [] ∧ renderSegments [w, w'] = " &-0,+.0-" ∧
      parseLead s " &-0,+.0-" = .ok [cross s, lead, cross s, lead, cross s] ∧
      w.segment.turns true ∧ (w.segment.rung true).reverse = w.segment.rung true ∧
      (w.segment.rung true).length = 3 := by
  intro s lead
  let crossed : WrittenChange s := ⟨[], ['-'], cross s, by simp, parse_cross rfl⟩
  let close : WrittenChange s := ⟨[], ['0'], lead, by simp, by rfl⟩
  let apart : WrittenChange s := ⟨['.'], ['0'], lead, List.forall_mem_singleton.2 rfl, by rfl⟩
  have isCross : crossed.IsCross := ⟨'-', rfl, rfl⟩
  let w : WrittenSegment s := ⟨[' '], .reflected, [crossed, close], [],
    List.forall_mem_singleton.2 rfl, by simp,
    List.isChain_pair.2 (.inr (.inl isCross)), by simp⟩
  let w' : WrittenSegment s := ⟨[], .plain, [apart, crossed], [], by simp, by simp,
    List.isChain_pair.2 (.inr (.inr isCross)), by simp⟩
  obtain ⟨-, palindrome, reads⟩ := parseLead_reads_block_notation s
  have text : renderSegments [w, w'] = " &-0,+.0-" := rfl
  have ne : [w, w'] ≠ [] := by simp
  have turns : w.segment.turns true := rfl
  obtain ⟨reverse, length⟩ := palindrome true w.segment turns
  obtain ⟨-, read⟩ := reads [w, w'] ne
  rw [text] at read
  exact ⟨w, w', ne, text, read, turns, reverse, length⟩

end Campanology.Change
