import Campanology.Proofs.Library.Titles

/-!
# The stage that a title names

A title names a stage by its last word, which is what follows its last space. The word may have
capitals where the ringing name has none, and blanks of other kinds around it (`Stage.Names`). Both
are told here without cutting the text; looking for the stage finds it just if it is named
(`Library.stageOf?_eq_some_iff`), so that a title names at most one stage.
-/

namespace Campanology

/-! ## Blanks around a text -/

namespace Text

/-- What blanks begin is trimmed of these. -/
theorem trimStart_append {before text : List Char} (blank : ∀ c ∈ before, isBlank c)
    (begins : ∀ c ∈ text.head?, isBlank c = false) : trimStart (before ++ text) = text := by
  rw [trimStart, List.dropWhile_append_of_pos blank]
  cases text with
  | nil => rfl
  | cons c text => rw [List.dropWhile_cons_of_neg (by simp [begins c rfl])]

/-- What blanks begin and end is trimmed of both. -/
theorem trim_append {before core after : List Char} (blank : ∀ c ∈ before, isBlank c)
    (blank' : ∀ c ∈ after, isBlank c) (solid : ∀ c ∈ core, isBlank c = false) (ne : core ≠ []) :
    trim (before ++ core ++ after) = core := by
  have start : trimStart (before ++ (core ++ after)) = core ++ after := by
    refine trimStart_append blank fun c hc => ?_
    rw [List.head?_append_of_ne_nil _ ne] at hc
    exact solid c (List.mem_of_mem_head? hc)
  have stop : trimStart (after.reverse ++ core.reverse) = core.reverse := by
    refine trimStart_append (fun c hc => blank' c (List.mem_reverse.1 hc)) fun c hc => ?_
    exact solid c (List.mem_reverse.1 (List.mem_of_mem_head? hc))
  rw [trim, List.append_assoc, start, List.reverse_append, stop, List.reverse_reverse]

/-- A text is what is left of it between blanks. -/
theorem exists_trim (text : List Char) : ∃ before after, text = before ++ trim text ++ after ∧
    (∀ c ∈ before, isBlank c) ∧ ∀ c ∈ after, isBlank c := by
  have start : text = text.takeWhile isBlank ++ trimStart text :=
    List.takeWhile_append_dropWhile.symm
  have stop : (trimStart text).reverse = (trimStart text).reverse.takeWhile isBlank ++
      trimStart (trimStart text).reverse := List.takeWhile_append_dropWhile.symm
  refine ⟨text.takeWhile isBlank, ((trimStart text).reverse.takeWhile isBlank).reverse, ?_,
    fun c hc => List.mem_takeWhile_imp hc,
    fun c hc => List.mem_takeWhile_imp (List.mem_reverse.1 hc)⟩
  rw [List.reverse_eq_iff, List.reverse_append] at stop
  rw [trim, List.append_assoc, ← stop]
  exact start

/-- No blank is a capital. -/
theorem toLower_of_isBlank {c : Char} (blank : isBlank c) : c.toLower = c := by
  refine dif_neg ?_
  rintro ⟨low, high⟩
  have low : 65 ≤ c.toNat := low
  have high : c.toNat ≤ 90 := high
  simp only [isBlank, Bool.or_eq_true, Bool.and_eq_true, decide_eq_true_eq] at blank
  omega

theorem isBlank_eq_false_of_map {text : List Char}
    (solid : ∀ c ∈ text.map Char.toLower, isBlank c = false) : ∀ c ∈ text, isBlank c = false := by
  intro c hc
  rw [Bool.eq_false_iff]
  intro blank
  have lowered := solid _ (List.mem_map_of_mem hc)
  rw [toLower_of_isBlank blank, blank] at lowered
  cases lowered

end Text

/-! ## Names of stages -/

/-- Whether a word is the ringing name of a stage, but for capitals and the blanks around it. -/
def Stage.Names (s : Stage) (word : List Char) : Prop :=
  ∃ name before core after, s.name? = some name ∧ word = before ++ core ++ after ∧
    (∀ c ∈ before, Text.isBlank c) ∧ (∀ c ∈ after, Text.isBlank c) ∧
    core.map Char.toLower = name.toList.map Char.toLower

namespace Library

theorem exists_name_of_ofName? {s : Stage} {text : String} (h : Stage.ofName? text = some s) :
    ∃ name, s.name? = some name ∧
      name.toList.map Char.toLower = (Text.trim text.toList).map Char.toLower := by
  unfold Stage.ofName? at h
  simpa [Option.any_eq_true] using List.find?_some h

/-- A ringing name is there, and has no blanks. -/
theorem solid_of_name {s : Stage} {name : String} (h : s.name? = some name) :
    name.toList ≠ [] ∧ ∀ c ∈ name.toList.map Char.toLower, Text.isBlank c = false := by
  have all : ∀ name ∈ Stage.names, name.toList ≠ [] ∧
      (name.toList.map Char.toLower).any Text.isBlank = false := by decide +kernel
  have mem : name ∈ Stage.names := by
    unfold Stage.name? at h
    split at h
    · exact List.mem_of_getElem? h
    · cases h
  obtain ⟨ne, solid⟩ := all name mem
  exact ⟨ne, fun c hc => Bool.eq_false_iff.2 (List.any_eq_false.1 solid c hc)⟩

theorem ofName?_eq_some_iff {s : Stage} {word : List Char} :
    Stage.ofName? (String.ofList word) = some s ↔ s.Names word := by
  constructor
  · intro found
    obtain ⟨name, named, same⟩ := exists_name_of_ofName? found
    rw [String.toList_ofList] at same
    obtain ⟨before, after, whole, blank, blank'⟩ := Text.exists_trim word
    exact ⟨name, before, _, after, named, whole, blank, blank', same.symm⟩
  · rintro ⟨name, before, core, after, named, rfl, blank, blank', same⟩
    obtain ⟨ne, solid⟩ := solid_of_name named
    have trimmed : Text.trim (before ++ core ++ after) = core := by
      refine Text.trim_append blank blank' (Text.isBlank_eq_false_of_map (same ▸ solid)) ?_
      rintro rfl
      exact ne (List.map_eq_nil_iff.1 same.symm)
    have whole : Text.trim name.toList = name.toList := by
      simpa using @Text.trim_append [] name.toList [] (by simp) (by simp)
        (Text.isBlank_eq_false_of_map solid) ne
    -- the stage is looked for by what is left of the word, as by the name itself
    rw [← (ofName?_name named).1, Stage.ofName?, Stage.ofName?, String.toList_ofList, trimmed,
      whole, same]

/-! ## Last words -/

theorem exists_endsIn (text : List Char) : ∃ word, EndsIn text word := by
  by_cases space : ' ' ∈ text
  · obtain ⟨word, rest, reversed, one⟩ := List.eq_append_cons_of_mem (List.mem_reverse.2 space)
    refine ⟨word.reverse, by simpa using one, .inr ⟨rest.reverse, ?_⟩⟩
    rw [← List.reverse_reverse text, reversed]
    simp
  · exact ⟨text, space, .inl rfl⟩

/-- Whether the last word of a title is the name of a stage. -/
def NamesStage (title : String) (s : Stage) : Prop :=
  ∃ word, EndsIn title.toList word ∧ s.Names word

theorem stageOf?_eq_some_iff {title : String} {s : Stage} :
    stageOf? title = some s ↔ NamesStage title s := by
  rw [stageOf?, ofName?_eq_some_iff]
  constructor
  · intro names
    obtain ⟨word, ends⟩ := exists_endsIn title.toList
    exact ⟨word, ends, ends.lastWord_eq ▸ names⟩
  · rintro ⟨word, ends, names⟩
    rwa [ends.lastWord_eq]

end Library

end Campanology
