import Mathlib.Data.List.TakeWhile
import Campanology.Library
import Campanology.Proofs.Refusals

/-!
# Methods under their own titles

A library that has been built keeps its entries and nothing else, each at its stage under its title
(`stored?_eq_some_iff`). Looking a title up begins by asking which stage its last word names. The
usual title of a method ends in what its stage is called, and so leads back to that stage if the
stage has a ringing name (`stageOf?_usualTitle`): such a method is found under the title it has
(`lookup_own_title`).

A stage without a ringing name is called by its number of bells. The last word is then "bells",
which is the name of no stage, and the method is missed, although its title stands in the library
(`unnamed_stage_missed`).
-/

namespace Campanology

namespace Library

variable {l l' : Library} {e : LibraryEntry}

/-! ## What is kept -/

@[simp] theorem stored?_empty (stage : Stage) (title : String) : empty.stored? stage title = none :=
  rfl

theorem insert_eq_ok_iff : l.insert e = .ok l' ↔ l.stored? e.stage e.title = none ∧
    ⟨l.shelves.alter e.stage fun shelf => (shelf.getD .empty).put e.title e.method⟩ = l' := by
  rw [insert]
  cases l.stored? e.stage e.title <;> simp

/-- A method that is entered stands at its stage under its title, and nothing else is changed. -/
theorem stored?_insert (h : l.insert e = .ok l') (stage : Stage) (title : String) :
    l'.stored? stage title =
      if stage = e.stage ∧ title = e.title then some e.method else l.stored? stage title := by
  obtain ⟨-, rfl⟩ := insert_eq_ok_iff.1 h
  rw [stored?, shelf, Register.get?_alter]
  by_cases here : stage = e.stage
  · subst here
    rw [if_pos rfl, Option.getD_some, Register.put, Register.get?_alter]
    simp only [true_and]
    rfl
  · rw [if_neg here, if_neg fun both => here both.1]
    rfl

theorem stored?_of_foldlM {es : List LibraryEntry} (h : es.foldlM insert l = .ok l')
    {stage : Stage} {title : String} {m : StoredMethod} :
    l'.stored? stage title = some m ↔ l.stored? stage title = some m ∨ ⟨title, stage, m⟩ ∈ es := by
  induction es generalizing l with
  | nil =>
    obtain rfl := Except.ok.inj h
    simp
  | cons e es ih =>
    rw [List.foldlM_cons, bind_eq_ok_iff] at h
    obtain ⟨l₁, entered, rest⟩ := h
    have free := (insert_eq_ok_iff.1 entered).1
    rw [ih rest, stored?_insert entered, List.mem_cons, ← or_assoc]
    refine or_congr_left ?_
    split
    · rename_i here
      obtain ⟨rfl, rfl⟩ := here
      obtain ⟨title, stage, method⟩ := e
      simp [free, eq_comm]
    · rename_i elsewhere
      refine (or_iff_left ?_).symm
      rintro rfl
      exact elsewhere ⟨rfl, rfl⟩

/-- **A library keeps its entries and nothing else.** -/
theorem stored?_eq_some_iff {es : List LibraryEntry} (made : ofEntries es = .ok l) {stage : Stage}
    {title : String} {m : StoredMethod} :
    l.stored? stage title = some m ↔ ⟨title, stage, m⟩ ∈ es := by
  rw [stored?_of_foldlM made, stored?_empty, or_iff_right (Option.some_ne_none m).symm]

theorem mem_entries_of_get? {κ α : Type} [DecidableEq κ] {r : Register κ α} {k : κ} {x : α}
    (h : r.get? k = some x) : (k, x) ∈ r.entries := by
  obtain ⟨⟨k', x'⟩, found, rfl⟩ := Option.map_eq_some_iff.1 h
  obtain rfl : k' = k := by simpa using List.find?_some found
  exact List.mem_of_find?_eq_some found

/-- The titles include each under which a method stands at some stage. -/
theorem contains_of_stored? {stage : Stage} {title : String} {m : StoredMethod}
    (h : l.stored? stage title = some m) : l.contains title = true := by
  rw [stored?, shelf] at h
  cases there : l.shelves.get? stage with
  | none =>
    rw [there] at h
    cases h
  | some titled =>
    rw [there, Option.getD_some] at h
    refine decide_eq_true (List.mem_flatMap.2 ⟨titled, ?_, ?_⟩)
    · exact List.mem_map_of_mem (mem_entries_of_get? there)
    · exact List.mem_map_of_mem (mem_entries_of_get? h)

/-! ## The last word of a title -/

/-- The text is a last word that has no space, with a space in front if there is anything in
front. -/
def EndsIn (text word : List Char) : Prop :=
  ' ' ∉ word ∧ (text = word ∨ ∃ before, text = before ++ ' ' :: word)

theorem EndsIn.lastWord_eq {text word : List Char} (h : EndsIn text word) :
    lastWord text = word := by
  obtain ⟨one, apart⟩ := h
  have whole : ∀ c ∈ word.reverse, decide (c ≠ ' ') = true := fun c hc =>
    decide_eq_true fun same => one (same ▸ List.mem_reverse.1 hc)
  obtain rfl | ⟨before, rfl⟩ := apart
  · rw [lastWord, List.takeWhile_eq_self_iff.2 whole, List.reverse_reverse]
  · rw [lastWord, List.reverse_append, List.reverse_cons, List.append_assoc,
      List.takeWhile_append_of_pos whole]
    simp

theorem EndsIn.append {text word : List Char} (h : EndsIn text word) (before : List Char) :
    EndsIn (before ++ ' ' :: text) word := by
  obtain ⟨one, rfl | ⟨b, rfl⟩⟩ := h
  · exact ⟨one, .inr ⟨before, rfl⟩⟩
  · exact ⟨one, .inr ⟨before ++ ' ' :: b, by simp⟩⟩

/-- A ringing name is one word, and names the stage that has it. -/
theorem ofName?_name {s : Stage} {name : String} (h : s.name? = some name) :
    Stage.ofName? name = some s ∧ ' ' ∉ name.toList ∧ name ≠ "" := by
  have all : ∀ s ∈ Stage.named, ∀ name ∈ s.name?, Stage.ofName? name = some s ∧
      ' ' ∉ name.toList ∧ name ≠ "" := by decide +kernel
  refine all s ?_ name h
  rw [Stage.name?] at h
  split at h
  · rename_i low
    have high : s.bells - 3 < 20 := (List.getElem?_eq_some_iff.1 h).1
    refine List.mem_map.2 ⟨⟨s.bells - 3, high⟩, List.mem_finRange _, Stage.ext ?_⟩
    exact Nat.sub_add_cancel low
  · cases h

/-- What a stage is called ends in its ringing name, or else in "bells", which names no stage. -/
theorem exists_endsIn_title (s : Stage) : s.title ≠ "" ∧ ∃ word, EndsIn s.title.toList word ∧
    Stage.ofName? (String.ofList word) = s.name?.map fun _ => s := by
  cases named : s.name? with
  | some name =>
    obtain ⟨leads, one, ne⟩ := ofName?_name named
    rw [Stage.title, named, Option.getD_some]
    refine ⟨ne, name.toList, ⟨one, .inl rfl⟩, ?_⟩
    rw [String.ofList_toList, leads, Option.map_some]
  | none =>
    have counted : s.title.toList = (toString s.bells).toList ++ ' ' :: "bells".toList := by
      rw [Stage.title, named, Option.getD_none, String.toList_append]
      rfl
    refine ⟨fun empty => ?_, _, ⟨by decide, .inr ⟨_, counted⟩⟩, rfl⟩
    rw [empty] at counted
    exact List.append_ne_nil_of_right_ne_nil _ (List.cons_ne_nil _ _) counted.symm

/-- The last word of the usual title names the stage, if the stage has a ringing name. -/
theorem stageOf?_usualTitle (name : String) (c : Classification) (s : Stage) :
    stageOf? (Method.usualTitle name c s) = s.name?.map fun _ => s := by
  obtain ⟨ne, word, ends, leads⟩ := exists_endsIn_title s
  have words : [name, c.text, s.title].filter (· ≠ "") =
      [name, c.text].filter (· ≠ "") ++ [s.title] := by
    change ([name, c.text] ++ [s.title]).filter (· ≠ "") = _
    rw [List.filter_append]
    exact congrArg _ (List.filter_cons_of_pos (by simpa using ne))
  have ends' : EndsIn (Method.usualTitle name c s).toList word := by
    rw [Method.usualTitle, words]
    by_cases alone : [name, c.text].filter (· ≠ "") = []
    · rwa [alone, List.nil_append, String.intercalate_singleton]
    · rw [String.intercalate_append_of_ne_nil alone (List.cons_ne_nil _ _),
        String.intercalate_singleton, String.toList_append, String.toList_append, List.append_assoc]
      exact ends.append _
  rw [stageOf?, ends'.lastWord_eq, leads]

/-! ## Looking up -/

theorem ofNotation_of_read {stage : Stage} {text : String} {lead : List (Change stage)}
    (reads : Change.parseLead stage text = .ok lead) (name : String)
    (classification : Classification) (statedTitle : Option String) :
    Method.ofNotation name text stage classification statedTitle =
      .ok ⟨name, stage, lead, classification, statedTitle, Change.parseLead_ne_nil reads⟩ := by
  unfold Method.ofNotation
  split
  · rename_i lead' h
    obtain rfl := Except.ok.inj (reads.symm.trans h)
    rfl
  · rename_i fault h
    rw [reads] at h
    cases h

/-- **A method is found under the title it has**, if its stage has a ringing name. The entries may
be any of which a library can be built, and the method any of them whose notation is read and whose
title is the usual one. If the stage has no ringing name, the title stands in the library and is
missed all the same. -/
theorem lookup_own_title {entries : List LibraryEntry} (made : ofEntries entries = .ok l)
    (mem : e ∈ entries) {changes : List (Change e.stage)}
    (reads : Change.parseLead e.stage e.method.notated = .ok changes) :
    let m : Method := ⟨e.method.name, e.stage, changes, e.method.classification, none,
      Change.parseLead_ne_nil reads⟩
    m.title = e.title →
      (e.stage.name?.isSome → l.lookup e.title =
        ⟨e.title, .found { m with statedTitle := some e.title }⟩) ∧
      (e.stage.name? = none → l.contains e.title = true ∧
        l.lookup e.title = ⟨e.title, .missing []⟩) := by
  intro m own
  have stage : stageOf? e.title = e.stage.name?.map fun _ => e.stage := by
    rw [← own]
    exact stageOf?_usualTitle ..
  have kept : l.stored? e.stage e.title = some e.method := (stored?_eq_some_iff made).2 mem
  refine ⟨fun named => ?_, fun unnamed => ⟨contains_of_stored? kept, ?_⟩⟩
  · obtain ⟨name, named⟩ := Option.isSome_iff_exists.1 named
    rw [named, Option.map_some] at stage
    simp only [lookup, stage, kept, StoredMethod.expand, ofNotation_of_read reads]
    rfl
  · rw [unnamed, Option.map_none] at stage
    simp only [lookup, stage]

/-- A library of three methods: one with a name of two words, one with no name and no class, and one
of two bells. -/
theorem lookup_own_title_three_methods :
    let minor : Stage := ⟨6, by decide, by decide⟩
    let two : Stage := ⟨2, by decide, by decide⟩
    let double : LibraryEntry :=
      ⟨"Double Court Bob Minor", minor, ⟨"Double Court", { base := .bob }, "-"⟩⟩
    let bare : LibraryEntry := ⟨"Minor", minor, ⟨"", {}, "-"⟩⟩
    let small : LibraryEntry := ⟨"Plain 2 bells", two, ⟨"Plain", {}, "-"⟩⟩
    ∃ l m m', ofEntries [double, bare, small] = .ok l ∧
      l.lookup double.title = ⟨double.title, .found m⟩ ∧ m.name = "Double Court" ∧
      l.lookup bare.title = ⟨bare.title, .found m'⟩ ∧ m'.name = "" ∧
      l.contains small.title = true ∧ l.lookup small.title = ⟨small.title, .missing []⟩ := by
  intro minor two double bare small
  obtain ⟨l, made⟩ : ∃ l, ofEntries [double, bare, small] = .ok l := ⟨_, rfl⟩
  have reads : Change.parseLead minor "-" = .ok [.cross minor] := by rfl
  have reads' : Change.parseLead two "-" = .ok [.cross two] := by rfl
  have title : Method.usualTitle "Double Court" { base := .bob } minor = double.title := by decide
  have title' : Method.usualTitle "" {} minor = bare.title := by decide
  have title'' : Method.usualTitle "Plain" {} two = small.title := by decide
  have found := (lookup_own_title made (e := double) (by simp) reads title).1 rfl
  have found' := (lookup_own_title made (e := bare) (by simp) reads title').1 rfl
  have missed := (lookup_own_title made (e := small) (by simp) reads' title'').2 rfl
  exact ⟨l, _, _, made, found, rfl, found', rfl, missed⟩

/-- A stage without a ringing name is named by no title, the usual ones of its methods included. -/
theorem unnamed_stage_missed :
    ¬ ∀ (entries : List LibraryEntry) (l : Library), ofEntries entries = .ok l → ∀ e ∈ entries,
      ∀ (changes : List (Change e.stage))
        (reads : Change.parseLead e.stage e.method.notated = .ok changes),
        (⟨e.method.name, e.stage, changes, e.method.classification, none,
          Change.parseLead_ne_nil reads⟩ : Method).title = e.title →
        ∃ m, (l.lookup e.title).finding = .found m := by
  intro finds
  let two : Stage := ⟨2, by decide, by decide⟩
  let small : LibraryEntry := ⟨"Plain 2 bells", two, ⟨"Plain", {}, "-"⟩⟩
  obtain ⟨l, made⟩ : ∃ l, ofEntries [small] = .ok l := ⟨_, rfl⟩
  have reads : Change.parseLead two "-" = .ok [.cross two] := by rfl
  have title : Method.usualTitle "Plain" {} two = small.title := by decide
  obtain ⟨m, found⟩ := finds [small] l made small (by simp) _ reads title
  have unnamed : stageOf? small.title = none := by
    rw [← title, stageOf?_usualTitle]
    rfl
  simp only [lookup, unnamed] at found
  cases found

end Library

end Campanology
