import Campanology.Change.Parser

/-!
# Leads in block notation

A lead is a sequence of changes. It is written in *blocks*, separated by commas. In a block the
changes stand one after another; a cross is a change by itself wherever it stands, and other changes
are kept apart by crosses or by separators, which are `.`, blank, tab and line ends. A block marked
`&` in front is rung and then rung backwards from its last change but one, one marked `+` is rung as
it stands; an unmarked block is taken as `+` when it is the only one, and as `&` when it has
company. Blanks before the mark do not count.

* `parseLead` reads a lead, block by block: `blocks` cuts the text, `lexemes` cuts a block.
* `renderLead` writes a lead as one block with as few separators as possible.
-/

namespace Campanology.Change

variable {s : Stage}

/-! ## Cutting the text -/

/-- A piece of text, and where it starts in the whole. -/
structure Piece where
  offset : Nat
  chars : List Char
  deriving DecidableEq

/-- How a block is marked. -/
inductive Mark
  | unmarked
  | reflected
  | plain
  deriving DecidableEq

/-- A block of notation: its mark, and what stands after the mark. -/
structure NotatedBlock where
  mark : Mark
  body : Piece
  deriving DecidableEq

/-- Puts the offset of its first character to each part of a text whose parts are separated by one
character. -/
def withOffsets : (offset : Nat) → List (List Char) → List Piece
  | _, [] => []
  | offset, part :: parts => ⟨offset, part⟩ :: withOffsets (offset + part.length + 1) parts

/-- Reads the mark of a block. -/
def markedBlock (p : Piece) : NotatedBlock :=
  let rest := Text.trimStart p.chars
  let start := p.offset + (p.chars.length - rest.length)
  match rest with
  | '&' :: body => ⟨.reflected, ⟨start + 1, body⟩⟩
  | '+' :: body => ⟨.plain, ⟨start + 1, body⟩⟩
  | body => ⟨.unmarked, ⟨start, body⟩⟩

/-- The blocks of a text. -/
def blocks (text : List Char) : List NotatedBlock :=
  (withOffsets 0 (text.splitOn ',')).map markedBlock

/-- Whether a character only keeps changes apart. -/
def isSeparator (c : Char) : Bool :=
  c = '.' || c = ' ' || c = '\t' || c = '\r' || c = '\n'

/-- Whether a character is part of a change that is not a cross. -/
def isWordChar (s : Stage) (c : Char) : Bool :=
  !isSeparator c && !isCrossSymbol s c

/-- The written changes of a block: each cross, and each longest run of other characters that are no
separators. -/
def lexemes (s : Stage) (p : Piece) : List Piece :=
  let groups := (p.chars.zipIdx p.offset).splitBy fun a b => isWordChar s a.1 && isWordChar s b.1
  groups.filterMap fun group =>
    match group with
    | [] => none
    | (c, offset) :: _ => if isSeparator c then none else some ⟨offset, group.map Prod.fst⟩

/-! ## Reading -/

/-- The changes of a block as it stands. -/
def parseBlock (s : Stage) (text : String) (p : Piece) : Except NotationFault (List (Change s)) :=
  match lexemes s p with
  | [] => .error ⟨.noBlock, text, String.ofList p.chars, p.offset⟩
  | words => words.mapM fun w => ofToken s text w.offset w.chars

/-- Changes followed by the same backwards, but for the last one, about which they turn. -/
def reflect (cs : List (Change s)) : List (Change s) := cs ++ cs.dropLast.reverse

/-- The changes of a block as it is rung, `company` telling whether it is not the only one. -/
def ringBlock (s : Stage) (text : String) (company : Bool) (b : NotatedBlock) :
    Except NotationFault (List (Change s)) := do
  let cs ← parseBlock s text b.body
  match b.mark with
  | .reflected => return reflect cs
  | .plain => return cs
  | .unmarked => return if company then reflect cs else cs

/-- The lead that a text shows. -/
def parseLead (s : Stage) (text : String) : Except NotationFault (List (Change s)) :=
  if text.toList.all Text.isBlank then .error ⟨.noBlock, text, text, 0⟩
  else do
    let bs := blocks text.toList
    return (← bs.mapM (ringBlock s text (1 < bs.length))).flatten

/-- A list read item by item without refusal has as many items, each read from one. -/
theorem mem_of_mapM {ε α β : Type} {f : α → Except ε β} :
    ∀ {xs : List α} {ys : List β}, xs.mapM f = .ok ys →
      (∀ y ∈ ys, ∃ x ∈ xs, f x = .ok y) ∧ ys.length = xs.length
  | [], ys, h => by
    simp only [List.mapM_nil, pure, Except.pure, Except.ok.injEq] at h
    subst h
    simp
  | x :: xs, ys, h => by
    simp only [List.mapM_cons, bind, Except.bind, pure, Except.pure] at h
    split at h
    · cases h
    rename_i y hy
    split at h
    · cases h
    rename_i rest hrest
    simp only [Except.ok.injEq] at h
    subst h
    obtain ⟨read, len⟩ := mem_of_mapM hrest
    refine ⟨?_, by simp [len]⟩
    intro z hz
    rcases List.mem_cons.1 hz with rfl | hz
    · exact ⟨x, by simp, hy⟩
    · obtain ⟨w, hw, e⟩ := read z hz
      exact ⟨w, by simp [hw], e⟩

theorem parseBlock_ne_nil {text : String} {p : Piece} {cs : List (Change s)}
    (h : parseBlock s text p = .ok cs) : cs ≠ [] := by
  simp only [parseBlock] at h
  split at h
  · cases h
  rename_i words hw
  have len := (mem_of_mapM h).2
  intro e
  rw [e, List.length_nil] at len
  exact hw (List.eq_nil_of_length_eq_zero len.symm)

theorem ringBlock_ne_nil {text : String} {company : Bool} {b : NotatedBlock} {cs : List (Change s)}
    (h : ringBlock s text company b = .ok cs) : cs ≠ [] := by
  simp only [ringBlock, bind, Except.bind, pure, Except.pure] at h
  split at h
  · cases h
  rename_i block hb
  have ne := parseBlock_ne_nil hb
  have ne' : reflect block ≠ [] := by simp [reflect, ne]
  split at h
  · cases h; exact ne'
  · cases h; exact ne
  · split at h
    · cases h; exact ne'
    · cases h; exact ne

/-- A lead that is read has changes. -/
theorem parseLead_ne_nil {text : String} {cs : List (Change s)} (h : parseLead s text = .ok cs) :
    cs ≠ [] := by
  simp only [parseLead, bind, Except.bind, pure, Except.pure] at h
  split at h
  · cases h
  split at h
  · cases h
  rename_i leads hl
  obtain ⟨read, len⟩ := mem_of_mapM hl
  cases h
  intro e
  rw [List.flatten_eq_nil_iff] at e
  cases leads with
  | nil =>
    have none : blocks text.toList = [] := List.eq_nil_of_length_eq_zero len.symm
    have parts : text.toList.splitOn ',' ≠ [] := List.splitOn_ne_nil _ _
    cases hp : text.toList.splitOn ',' with
    | nil => exact parts hp
    | cons part rest => simp [blocks, hp, withOffsets] at none
  | cons lead rest =>
    obtain ⟨b, _, hb⟩ := read lead (by simp)
    exact ringBlock_ne_nil hb (e lead (by simp))

/-! ## Writing -/

/-- Changes in writing, after a change: `afterPlaces` tells whether that was one with places in
writing, which is kept apart from the next such by a dot. -/
def renderFrom : (afterPlaces : Bool) → List (Staged Change) → String
  | _, [] => ""
  | afterPlaces, ⟨_, c⟩ :: cs =>
    if c.isCross then c.text ++ renderFrom false cs
    else (if afterPlaces then "." else "") ++ c.text ++ renderFrom true cs

/-- Changes of any stages in writing. -/
def render (cs : List (Staged Change)) : String := renderFrom false cs

/-- A lead in writing. -/
def renderLead (cs : List (Change s)) : String := render (cs.map .of)

end Campanology.Change
