import Mathlib.Data.List.Forall2
import Campanology.Proofs.Library.Catalogue
import Campanology.Proofs.Library.Matchers

/-!
# The nearest titles

When a title is missing a matcher ranks the titles of the library by the fewest edits that make them
of it, those of the same number as they are listed (`Library.Nearer`). The suggestions are the first
of that ranking: each with its number of edits, in order, and none left out that comes before one of
them (`Library.Nearest`, `Library.nearest_take`). This is a matter of places and not of titles,
since a title may stand at several stages.

The matcher is not asked for a title that is not missing, nor for no suggestions. What it is asked
for it finds, if it can be relied on (`Library.exists_suggest`, `Library.suggestions_are_nearest`).
-/

namespace Campanology

namespace Library

variable {l : Library} {m : Matcher} {title : String}

/-- The title at a place of the library takes fewer edits than that at another, or as many and is
listed first. -/
def Nearer (l : Library) (title : String) (i j : ℕ) : Prop :=
  ∃ t u m n, l.titles[i]? = some t ∧ l.titles[j]? = some u ∧
    Text.FewestEdits title t m ∧ Text.FewestEdits title u n ∧ (m < n ∨ m = n ∧ i < j)

/-- The suggestions are the titles at some places of the library, and no other place is nearer. -/
structure Nearest (l : Library) (title : String) (places : List ℕ)
    (suggestions : List Suggestion) : Prop where
  listed : List.Forall₂ (fun i s => l.titles[i]? = some s.1 ∧
    ∃ n : ℕ, s.2 = (n : ℤ) ∧ Text.FewestEdits title s.1 n) places suggestions
  sorted : places.Pairwise (l.Nearer title)
  first : ∀ i ∈ places, ∀ j < l.titles.length, j ∉ places → l.Nearer title i j

/-! ## The first of a ranking -/

section Ranking

variable {ranking : List Match} {limit : ℤ} (lawful : m.Lawful limit)
  (ranks : Ranks m.distance title l.titles ranking)

include lawful ranks

/-- What is ranked stands in the library, and has the fewest edits for its distance. -/
theorem listed_of_mem {t : Match} (mem : t ∈ ranking) :
    l.titles[t.place]? = some t.choice ∧ Text.FewestEdits title t.choice t.distance := by
  obtain ⟨listed, measured⟩ := ranks.read t mem
  exact ⟨listed, measured ▸ lawful.fewest title t.choice⟩

theorem nearer_of_before {t u : Match} (ht : t ∈ ranking) (hu : u ∈ ranking)
    (before : t.Before u) : l.Nearer title t.place u.place := by
  obtain ⟨listed, fewest⟩ := listed_of_mem lawful ranks ht
  obtain ⟨listed', fewest'⟩ := listed_of_mem lawful ranks hu
  exact ⟨_, _, _, _, listed, listed', fewest, fewest', before⟩

/-- The first of a ranking are the nearest titles. -/
theorem nearest_take (count : ℕ) :
    l.Nearest title ((ranking.take count).map Match.place)
      ((ranking.take count).map Match.suggestion) where
  listed := by
    rw [List.forall₂_map_left_iff, List.forall₂_map_right_iff, List.forall₂_same]
    intro t mem
    obtain ⟨listed, fewest⟩ := listed_of_mem lawful ranks (List.mem_of_mem_take mem)
    exact ⟨listed, _, rfl, fewest⟩
  sorted := by
    refine List.pairwise_map.2 ((ranks.sorted.take).imp_of_mem fun {t u} ht hu before => ?_)
    exact nearer_of_before lawful ranks (List.mem_of_mem_take ht) (List.mem_of_mem_take hu) before
  first := by
    intro i hi j lt out
    obtain ⟨t, ht, rfl⟩ := List.mem_map.1 hi
    obtain ⟨u, hu, rfl⟩ := List.mem_map.1 (ranks.places.mem_iff.2 (List.mem_range.2 lt))
    have later : u ∈ ranking.drop count := by
      rw [← List.take_append_drop count ranking, List.mem_append] at hu
      exact hu.resolve_left fun early => out (List.mem_map_of_mem early)
    exact nearer_of_before lawful ranks (List.mem_of_mem_take ht) hu
      (ranks.sorted.rel_of_mem_take_of_mem_drop ht later)

end Ranking

/-! ## Looking up with suggestions -/

/-- There are as many suggestions as are asked for, if there are as many titles, and they are the
nearest. -/
theorem exists_suggest (l : Library) (m : Matcher) (title : String) (count : ℤ)
    (lawful : 0 < count → m.Lawful count) :
    ∃ suggestions places, l.suggest m title count = .ok suggestions ∧
      suggestions.length = min count.toNat l.size ∧ l.Nearest title places suggestions := by
  rw [suggest]
  split
  · rename_i none
    refine ⟨[], [], rfl, ?_, .nil, .nil, nofun⟩
    rw [Int.toNat_of_nonpos none, Nat.zero_min, List.length_nil]
  · rename_i some
    have lawful := lawful (Int.not_le.1 some)
    obtain ⟨ranking, ranks, found⟩ := lawful.finds title l.titles
    refine ⟨_, _, by rw [found]; rfl, ?_, nearest_take lawful ranks count.toNat⟩
    have size := ranks.places.length_eq
    rw [List.length_map, List.length_range, length_titles] at size
    rw [List.length_map, List.length_take, size]

theorem lookup_of_isMissing (missing : (l.lookup title).isMissing = true) :
    l.lookup title = ⟨title, .missing []⟩ := by
  unfold lookup at missing ⊢
  split at missing
  · rfl
  · split at missing
    · rfl
    · split at missing <;> cases missing

theorem mapMissingM_of_not_isMissing {n : Type → Type} [Monad n] {a : Answer}
    (there : a.isMissing = false) (f : List Suggestion → n (List Suggestion)) :
    a.mapMissingM f = pure a := by
  unfold Answer.isMissing at there
  unfold Answer.mapMissingM
  split at there
  · cases there
  · rfl

/-- **The suggestions are the nearest titles.** A title that is not missing is looked up as without
them. If it is missing, and a matcher that is asked for some can be relied on, there are as many
suggestions as are asked for, or as many as there are titles; each has the least number of edits
that make it of the title looked up, they stand in the order of this number and else of the library,
and no title left out comes before one of them. Taking the answer as a method then tells the title
and these suggestions. -/
theorem suggestions_are_nearest (l : Library) (m : Matcher) (title : String) (count : ℤ) :
    ((l.lookup title).isMissing = false →
      l.lookupSuggesting m title count = .ok (l.lookup title)) ∧
    ((l.lookup title).isMissing = true → (0 < count → m.Lawful count) → ∃ suggestions places,
      l.lookupSuggesting m title count = .ok ⟨title, .missing suggestions⟩ ∧
      (count ≤ 0 → suggestions = []) ∧
      suggestions.length = min count.toNat l.size ∧
      l.Nearest title places suggestions ∧
      Answer.method ⟨title, .missing suggestions⟩ = .error (.inr ⟨title, suggestions⟩)) := by
  constructor
  · intro there
    exact mapMissingM_of_not_isMissing there _
  · intro missing lawful
    obtain ⟨suggestions, places, told, length, nearest⟩ := exists_suggest l m title count lawful
    refine ⟨suggestions, places, ?_, fun low => ?_, length, nearest, rfl⟩
    · rw [lookupSuggesting, lookup_of_isMissing missing, Answer.mapMissingM, told]
      rfl
    · rw [Int.toNat_of_nonpos low, Nat.zero_min] at length
      exact List.eq_nil_of_length_eq_zero length

/-- A title that stands at two stages, and one that is missing from the library, with the matcher
that counts edits. -/
theorem suggestions_are_nearest_two_stages :
    let five : Stage := ⟨5, by decide, by decide⟩
    let six : Stage := ⟨6, by decide, by decide⟩
    let plain : LibraryEntry := ⟨"Plain Minor", six, ⟨"Plain", { base := .bob }, "-"⟩⟩
    let other : LibraryEntry := ⟨"Plain Minor", five, ⟨"Other", {}, "0"⟩⟩
    ∃ l suggestions none places, ofEntries [plain, other] = .ok l ∧
      l.lookupSuggesting .byEdits "Plain Minor" 5 = .ok (l.lookup "Plain Minor") ∧
      l.lookupSuggesting .byEdits "Plain Minr" 5 = .ok ⟨"Plain Minr", .missing suggestions⟩ ∧
      suggestions.length = 2 ∧ l.Nearest "Plain Minr" places suggestions ∧
      l.lookupSuggesting .byEdits "Plain Minr" (-1) = .ok ⟨"Plain Minr", .missing none⟩ ∧
      none = [] := by
  intro five six plain other
  obtain ⟨l, made⟩ : ∃ l, ofEntries [plain, other] = .ok l := ⟨_, rfl⟩
  have lists := lists_ofEntries made
  have size : l.size = 2 := by
    rw [← length_titles, lists.titles_perm.length_eq]
    rfl
  have names : NamesStage "Plain Minor" six := stageOf?_eq_some_iff.1 rfl
  have reads : Change.parseLead six "-" = .ok [.cross six] := by rfl
  have there : (l.lookup "Plain Minor").isMissing = false := by
    rw [(lookup_of_mem made (e := plain) (by simp) rfl names).1 _ reads]
    rfl
  have missing : (l.lookup "Plain Minr").isMissing = true := rfl
  have answers := suggestions_are_nearest l .byEdits
  obtain ⟨suggestions, places, told, -, length, nearest, -⟩ :=
    (answers "Plain Minr" 5).2 missing fun _ => Matcher.lawful_byEdits 5
  obtain ⟨none, -, nothing, few, -⟩ := (answers "Plain Minr" (-1)).2 missing nofun
  rw [size] at length
  exact ⟨l, suggestions, none, places, made, (answers _ 5).1 there, told, length, nearest, nothing,
    few (by decide)⟩

end Library

end Campanology
