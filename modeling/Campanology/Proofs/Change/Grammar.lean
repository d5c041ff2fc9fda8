import Mathlib.Data.List.SplitBy
import Mathlib.Data.List.TakeWhile
import Campanology.Change.Lead
import Campanology.Proofs.Change.Token

/-!
# The body of a block

What the body of a block shows is told here without cutting it: nothing shows nothing, a separator
shows nothing before what follows, a cross symbol shows the cross wherever it stands, and a run of
word characters which goes on as long as it can shows the change that it is parsed to (`Shows`).

Cutting a body at the end of a run, or where either neighbour is no word character, cuts its lexemes
(`lexemes_append`). With this the lexemes of a body are read from its first characters on, and
reading them one by one finds what the body shows (`parseBlock_eq_ok_iff`).
-/

namespace Campanology.Change

variable {s : Stage}

/-- The changes that the body of a block shows. -/
inductive Shows (s : Stage) : List Char → List (Change s) → Prop
  | nil : Shows s [] []
  | separator {x : Char} {text : List Char} {cs : List (Change s)} (hx : isSeparator x)
      (rest : Shows s text cs) : Shows s (x :: text) cs
  | cross {x : Char} {text : List Char} {cs : List (Change s)} (hx : isCrossSymbol s x)
      (rest : Shows s text cs) : Shows s (x :: text) (cross s :: cs)
  | word {w text : List Char} {c : Change s} {cs : List (Change s)} (hw : ∀ x ∈ w, isWordChar s x)
      (hend : ∀ x ∈ text.head?, isWordChar s x = false) (hc : parse s (String.ofList w) = .ok c)
      (rest : Shows s text cs) : Shows s (w ++ text) (c :: cs)

/-! ## Kinds of characters -/

theorem isWordChar_of_isSeparator {x : Char} (h : isSeparator x) : isWordChar s x = false := by
  simp [isWordChar, h]

theorem isWordChar_of_isCrossSymbol {x : Char} (h : isCrossSymbol s x) :
    isWordChar s x = false := by
  simp [isWordChar, h]

theorem eq_of_isCrossSymbol {x : Char} (h : isCrossSymbol s x) : x = '-' ∨ x = 'x' ∨ x = 'X' := by
  simp only [isCrossSymbol, Bool.or_eq_true, Bool.and_eq_true, decide_eq_true_eq] at h
  tauto

theorem isSeparator_of_isCrossSymbol {x : Char} (h : isCrossSymbol s x) :
    isSeparator x = false := by
  rcases eq_of_isCrossSymbol h with rfl | rfl | rfl <;> decide

theorem isWordChar_of_number? {x : Char} (hcross : isCrossSymbol s x = false)
    (hx : (Symbol.number? x).isSome) : isWordChar s x := by
  have hsep : isSeparator x = false := by
    rw [Bool.eq_false_iff]
    intro hsep
    simp only [isSeparator, Bool.or_eq_true, decide_eq_true_eq] at hsep
    rcases hsep with (((rfl | rfl) | rfl) | rfl) | rfl <;> exact absurd hx (by decide)
  simp [isWordChar, hsep, hcross]

/-- Whether a character can be part of a change. -/
def IsSymbol (s : Stage) (x : Char) : Prop :=
  isCrossSymbol s x ∨ (Symbol.number? x).isSome

theorem isSymbol_of_parse {w : List Char} {c : Change s} (h : parse s (String.ofList w) = .ok c) :
    ∀ x ∈ w, IsSymbol s x := by
  intro x hx
  rcases number?_of_parse h with ⟨y, rfl, hy, -⟩ | all
  · rw [List.mem_singleton] at hx
    subst hx
    exact .inl hy
  · exact .inr (all x hx).2

theorem IsSymbol.isBlank_eq_false {x : Char} (h : IsSymbol s x) : Text.isBlank x = false := by
  rcases h with hx | hx
  · rcases eq_of_isCrossSymbol hx with rfl | rfl | rfl <;> decide
  have code : 48 ≤ x.toNat ∧ x.toNat ≤ 122 := by
    simp only [Symbol.number?] at hx
    split at hx
    · omega
    split at hx
    · omega
    split at hx
    · omega
    · cases hx
  rw [Bool.eq_false_iff]
  intro blank
  simp only [Text.isBlank, Bool.or_eq_true, Bool.and_eq_true, decide_eq_true_eq] at blank
  omega

/-- The characters with a meaning outside bodies neither separate nor can be part of a change. -/
theorem not_isSymbol_of_mem {x : Char} (h : x ∈ [',', '&', '+']) :
    isSeparator x = false ∧ ¬ IsSymbol s x := by
  simp only [List.mem_cons, List.not_mem_nil, or_false] at h
  have known : isSeparator x = false ∧ ¬ (x = '-' ∨ x = 'x' ∨ x = 'X') ∧
      ¬ (Symbol.number? x).isSome := by
    rcases h with rfl | rfl | rfl <;> decide
  obtain ⟨hsep, hcross, hnumber⟩ := known
  refine ⟨hsep, ?_⟩
  rintro (hx | hx)
  · exact hcross (eq_of_isCrossSymbol hx)
  · exact hnumber hx

/-! ## Lexemes -/

/-- The lexemes of a text that is not cut within a run of word characters. -/
theorem lexemes_append {offset : ℕ} {a b : List Char}
    (h : ∀ x ∈ a.getLast?, ∀ y ∈ b.head?, (isWordChar s x && isWordChar s y) = false) :
    lexemes s ⟨offset, a ++ b⟩ = lexemes s ⟨offset, a⟩ ++ lexemes s ⟨offset + a.length, b⟩ := by
  have cut : ∀ x ∈ (a.zipIdx offset).getLast?, ∀ y ∈ (b.zipIdx (offset + a.length)).head?,
      (isWordChar s x.1 && isWordChar s y.1) = false := by
    intro x hx y hy
    refine h x.1 ?_ y.1 ?_
    · rw [← List.zipIdx_map_fst offset a, List.getLast?_map]
      exact Option.mem_map_of_mem Prod.fst hx
    · rw [← List.zipIdx_map_fst (offset + a.length) b, List.head?_map]
      exact Option.mem_map_of_mem Prod.fst hy
  simp only [lexemes]
  rw [List.zipIdx_append, List.splitBy_append cut, List.filterMap_append]

theorem lexemes_separator {offset : ℕ} {x : Char} (h : isSeparator x) :
    lexemes s ⟨offset, [x]⟩ = [] := by
  simp [lexemes, List.splitBy, List.splitBy.loop, h]

/-- Word characters, and a cross symbol by itself, are one lexeme. -/
theorem lexemes_of_isChain {offset : ℕ} {x : Char} {w : List Char} (hx : isSeparator x = false)
    (h : (x :: w).IsChain fun a b => isWordChar s a && isWordChar s b) :
    lexemes s ⟨offset, x :: w⟩ = [⟨offset, x :: w⟩] := by
  have chain : ((x :: w).zipIdx offset).IsChain fun a b =>
      isWordChar s a.1 && isWordChar s b.1 := by
    rw [← List.zipIdx_map_fst offset (x :: w), List.isChain_map] at h
    exact h
  simp only [lexemes]
  rw [List.splitBy_of_isChain (by simp) chain]
  simp [hx, List.zipIdx_cons]

theorem lexemes_cons_separator {offset : ℕ} {x : Char} (h : isSeparator x) (text : List Char) :
    lexemes s ⟨offset, x :: text⟩ = lexemes s ⟨offset + 1, text⟩ := by
  rw [← List.singleton_append, lexemes_append, lexemes_separator h]
  · rfl
  · simp [isWordChar_of_isSeparator h]

theorem lexemes_cons_cross {offset : ℕ} {x : Char} (h : isCrossSymbol s x) (text : List Char) :
    lexemes s ⟨offset, x :: text⟩ = ⟨offset, [x]⟩ :: lexemes s ⟨offset + 1, text⟩ := by
  rw [← List.singleton_append, lexemes_append,
    lexemes_of_isChain (isSeparator_of_isCrossSymbol h) (List.isChain_singleton x)]
  · rfl
  · simp [isWordChar_of_isCrossSymbol h]

theorem lexemes_word_append {offset : ℕ} {w text : List Char} (ne : w ≠ [])
    (hw : ∀ x ∈ w, isWordChar s x) (hend : ∀ x ∈ text.head?, isWordChar s x = false) :
    lexemes s ⟨offset, w ++ text⟩ = ⟨offset, w⟩ :: lexemes s ⟨offset + w.length, text⟩ := by
  have cut : ∀ x ∈ w.getLast?, ∀ y ∈ text.head?, (isWordChar s x && isWordChar s y) = false := by
    intro x _ y hy
    rw [hend y hy, Bool.and_false]
  have chain : w.IsChain fun a b => isWordChar s a && isWordChar s b := by
    refine (List.pairwise_of_forall_mem_list fun x hx y hy => ?_).isChain
    rw [hw x hx, hw y hy]
    rfl
  rw [lexemes_append cut]
  cases w with
  | nil => exact absurd rfl ne
  | cons x w =>
    have hx : isSeparator x = false := by
      have := hw x List.mem_cons_self
      simp only [isWordChar, Bool.and_eq_true, Bool.not_eq_true'] at this
      exact this.1
    rw [lexemes_of_isChain hx chain, List.singleton_append]

/-! ## Reading a body -/

/-- A body is read from its first characters on, runs of word characters at once. -/
theorem body_induction {P : List Char → Prop} (nil : P [])
    (separator : ∀ x text, isSeparator x → P text → P (x :: text))
    (cross : ∀ x text, isCrossSymbol s x → P text → P (x :: text))
    (word : ∀ w text, w ≠ [] → (∀ x ∈ w, isWordChar s x) →
      (∀ x ∈ text.head?, isWordChar s x = false) → P text → P (w ++ text))
    (text : List Char) : P text := by
  induction hn : text.length using Nat.strong_induction_on generalizing text with
  | _ n ih =>
    subst hn
    cases text with
    | nil => exact nil
    | cons x text =>
      have rest := ih text.length (by simp) text rfl
      by_cases hsep : isSeparator x
      · exact separator x text hsep rest
      by_cases hcross : isCrossSymbol s x
      · exact cross x text hcross rest
      have hx : isWordChar s x := by simp [isWordChar, hsep, hcross]
      -- the run goes on after `x`, so that `rest` does not do
      have shorter : (text.dropWhile (isWordChar s)).length < (x :: text).length := by
        have := (List.dropWhile_sublist (isWordChar s) (l := text)).length_le
        rw [List.length_cons]
        omega
      have run : x :: text =
          (x :: text.takeWhile (isWordChar s)) ++ text.dropWhile (isWordChar s) := by
        rw [List.cons_append, List.takeWhile_append_dropWhile]
      rw [run]
      refine word _ _ (List.cons_ne_nil _ _) ?_ ?_ (ih _ shorter _ rfl)
      · intro y hy
        rcases List.mem_cons.1 hy with rfl | hy
        · exact hx
        · exact List.mem_takeWhile_imp hy
      · intro y hy
        have := List.head?_dropWhile_not (isWordChar s) text
        rw [Option.mem_def.1 hy] at this
        exact this

theorem forall₂_lexemes_of_shows {text : List Char} {cs : List (Change s)} (h : Shows s text cs)
    (offset : ℕ) :
    List.Forall₂ (fun w c => parse s (String.ofList w.chars) = .ok c)
      (lexemes s ⟨offset, text⟩) cs := by
  induction h generalizing offset with
  | nil => exact .nil
  | separator hx _ ih =>
    rw [lexemes_cons_separator hx]
    exact ih (offset + 1)
  | cross hx _ ih =>
    rw [lexemes_cons_cross hx]
    exact .cons (parse_cross hx) (ih (offset + 1))
  | word hw hend hc _ ih =>
    rw [lexemes_word_append (ne_nil_of_parse hc) hw hend]
    exact .cons hc (ih _)

theorem shows_of_forall₂_lexemes (text : List Char) : ∀ {offset : ℕ} {cs : List (Change s)},
    List.Forall₂ (fun w c => parse s (String.ofList w.chars) = .ok c)
      (lexemes s ⟨offset, text⟩) cs → Shows s text cs := by
  induction text using body_induction (s := s) with
  | nil =>
    intro offset cs h
    cases h
    exact .nil
  | separator x text hx ih =>
    intro offset cs h
    rw [lexemes_cons_separator hx] at h
    exact .separator hx (ih h)
  | cross x text hx ih =>
    intro offset cs h
    rw [lexemes_cons_cross hx] at h
    cases h with
    | cons hc h =>
      rw [parse_cross hx] at hc
      cases hc
      exact .cross hx (ih h)
  | word w text ne hw hend ih =>
    intro offset cs h
    rw [lexemes_word_append ne hw hend] at h
    cases h with
    | cons hc h => exact .word hw hend hc (ih h)

/-- A block is read without refusal if and only if its body shows changes, at least one, and these
are read. -/
theorem parseBlock_eq_ok_iff {text : String} {p : Piece} {cs : List (Change s)} :
    parseBlock s text p = .ok cs ↔ cs ≠ [] ∧ Shows s p.chars cs := by
  have shows_iff : Shows s p.chars cs ↔
      (lexemes s p).mapM (fun w => ofToken s text w.offset w.chars) = .ok cs := by
    rw [mapM_eq_ok_iff]
    simp only [ofToken_eq_ok_iff_parse]
    exact ⟨fun h => forall₂_lexemes_of_shows h p.offset, shows_of_forall₂_lexemes p.chars⟩
  constructor
  · intro h
    refine ⟨parseBlock_ne_nil h, shows_iff.2 ?_⟩
    unfold parseBlock at h
    split at h
    · cases h
    · exact h
  · rintro ⟨ne, h⟩
    rw [shows_iff] at h
    unfold parseBlock
    split
    · rename_i hw
      rw [hw] at h
      cases h
      exact absurd rfl ne
    · exact h

/-! ## The characters of a body -/

/-- Each character of a body is a separator or part of a change. -/
theorem Shows.isSymbol {text : List Char} {cs : List (Change s)} (h : Shows s text cs) :
    ∀ x ∈ text, isSeparator x ∨ IsSymbol s x := by
  induction h with
  | nil => simp
  | separator hx _ ih => exact List.forall_mem_cons.2 ⟨.inl hx, ih⟩
  | cross hx _ ih => exact List.forall_mem_cons.2 ⟨.inr (.inl hx), ih⟩
  | word _ _ hc _ ih =>
    exact List.forall_mem_append.2 ⟨fun x hx => .inr (isSymbol_of_parse hc x hx), ih⟩

theorem Shows.not_mem {text : List Char} {cs : List (Change s)} (h : Shows s text cs) {x : Char}
    (hx : x ∈ [',', '&', '+']) : x ∉ text := by
  intro mem
  obtain ⟨hsep, hsym⟩ := not_isSymbol_of_mem (s := s) hx
  rcases h.isSymbol x mem with h | h
  · rw [hsep] at h
    cases h
  · exact hsym h

theorem Shows.eq_nil {cs : List (Change s)} (h : Shows s [] cs) : cs = [] := by
  generalize ht : [] = text at h
  cases h with
  | nil => rfl
  | separator | cross => cases ht
  | word _ _ hc _ => exact absurd (List.append_eq_nil_iff.1 ht.symm).1 (ne_nil_of_parse hc)

/-- A body shows the same without the blanks it begins with: it can begin with no blank that is no
separator. -/
theorem Shows.dropWhile_isBlank {text : List Char} {cs : List (Change s)} (h : Shows s text cs) :
    Shows s (text.dropWhile Text.isBlank) cs := by
  induction h with
  | nil => exact .nil
  | @separator x text cs hx rest ih =>
    rw [List.dropWhile_cons]
    split
    · exact ih
    · exact .separator hx rest
  | cross hx rest ih =>
    rw [List.dropWhile_cons_of_neg]
    · exact .cross hx rest
    · simp [IsSymbol.isBlank_eq_false (.inl hx)]
  | @word w text c cs hw hend hc rest ih =>
    cases hw' : w with
    | nil => exact absurd hw' (ne_nil_of_parse hc)
    | cons x w' =>
      have hx := (isSymbol_of_parse hc x (hw' ▸ List.mem_cons_self)).isBlank_eq_false
      rw [List.cons_append, List.dropWhile_cons_of_neg (by simp [hx]), ← List.cons_append, ← hw']
      exact .word hw hend hc rest

end Campanology.Change
