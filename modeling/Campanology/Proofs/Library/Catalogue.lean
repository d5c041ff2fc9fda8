import Mathlib.Data.List.Induction
import Mathlib.Data.List.Nodup
import Campanology.Proofs.Library.Stages

/-!
# A library as a catalogue of its entries

A library is built by entering methods one after another, which is refused for the first entry whose
stage and title an earlier entry has (`Library.ofEntries_eq_error_iff`). Each entry puts its title
behind those of its stage, and its stage, if that is new, behind the other stages
(`Library.Lists.insert`). So the titles of the library are the titles of the entries, put together
stage by stage (`Library.Lists.titles_eq`).

A title is looked up at the stage that it names, and what is found is the entry which has both, or
nothing if there is none (`Library.catalogue_looks_up_entries`).
-/

namespace Campanology

/-! ## Grouping -/

section Grouping

variable {α β : Type} [DecidableEq β]

/-- Of things one after another, each different one is kept where it comes first. -/
theorem eraseDups_concat (xs : List β) (x : β) :
    (xs ++ [x]).eraseDups = if x ∈ xs then xs.eraseDups else xs.eraseDups ++ [x] := by
  rw [List.eraseDups_append]
  split
  · rename_i old
    simp [List.removeAll, old]
  · rename_i new
    simp [List.removeAll, new, List.eraseDups_cons]

theorem nodup_eraseDups (xs : List β) : xs.eraseDups.Nodup := by
  induction xs using List.reverseRecOn with
  | nil => simp
  | append_singleton xs x ih =>
    rw [eraseDups_concat]
    split
    · exact ih
    · rename_i new
      exact List.concat_eq_append ▸ ih.concat fun old => new (List.mem_eraseDups.1 old)

/-- Things that are put together by what they belong to are the same things. -/
theorem flatMap_filter_perm (f : α → β) {ks : List β} (nodup : ks.Nodup) {xs : List α}
    (all : ∀ x ∈ xs, f x ∈ ks) : (ks.flatMap fun k => xs.filter (f · = k)).Perm xs := by
  induction ks generalizing xs with
  | nil =>
    rw [List.eq_nil_iff_forall_not_mem.2 fun x hx => List.not_mem_nil (all x hx)]
    exact .refl _
  | cons k ks ih =>
    obtain ⟨new, nodup⟩ := List.nodup_cons.1 nodup
    let others := xs.filter fun x => !decide (f x = k)
    have rest : (ks.flatMap fun k' => xs.filter (f · = k')) =
        ks.flatMap fun k' => others.filter (f · = k') := by
      refine List.flatMap_congr fun k' hk' => ?_
      rw [List.filter_filter]
      refine List.filter_congr fun x _ => ?_
      by_cases here : f x = k'
      · have ne : k' ≠ k := by
          rintro rfl
          exact new hk'
        simp [here, ne]
      · simp [here]
    have belong : ∀ x ∈ others, f x ∈ ks := by
      intro x hx
      obtain ⟨hx, ne⟩ := List.mem_filter.1 hx
      exact List.mem_of_ne_of_mem (by simpa using ne) (all x hx)
    rw [List.flatMap_cons, rest]
    exact ((ih nodup belong).append_left _).trans (List.filter_append_perm _ xs)

end Grouping

namespace Register

variable {κ α : Type} [DecidableEq κ] {r : Register κ α}

theorem get?_eq_none_iff {k : κ} : r.get? k = none ↔ k ∉ r.keys := by
  simp only [get?, keys, Option.map_eq_none_iff, List.find?_eq_none, List.mem_map,
    decide_eq_true_eq, not_exists, not_and]

theorem get?_of_mem (nodup : r.keys.Nodup) {e : κ × α} (mem : e ∈ r.entries) :
    r.get? e.1 = some e.2 := by
  cases found : r.get? e.1 with
  | none => exact absurd (List.mem_map_of_mem mem) (get?_eq_none_iff.1 found)
  | some x =>
    have same : (e.1, x) = e :=
      List.inj_on_of_nodup_map nodup (Library.mem_entries_of_get? found) mem rfl
    rw [← same]

/-- The things kept are those that are found under the keys. -/
theorem values_eq_map (nodup : r.keys.Nodup) (default : α) :
    r.values = r.keys.map fun k => (r.get? k).getD default := by
  rw [values, keys, List.map_map]
  refine List.map_congr_left fun e he => ?_
  rw [Function.comp_apply, get?_of_mem nodup he, Option.getD_some]

end Register

/-- Where a method is entered. -/
def LibraryEntry.place (e : LibraryEntry) : Stage × String := (e.stage, e.title)

namespace Library

variable {l l' : Library} {e : LibraryEntry} {es : List LibraryEntry}

/-! ## Order -/

/-- The library lists entries: their stages as they come first, and at each stage the titles of its
entries. -/
structure Lists (l : Library) (es : List LibraryEntry) : Prop where
  stages : l.shelves.keys = (es.map LibraryEntry.stage).eraseDups
  titles : ∀ s, (l.shelf s).keys = (es.filter (·.stage = s)).map LibraryEntry.title

theorem lists_empty : Lists empty [] := ⟨rfl, fun _ => rfl⟩

theorem Lists.insert (h : l.Lists es) (entered : l.insert e = .ok l') : l'.Lists (es ++ [e]) := by
  obtain ⟨free, rfl⟩ := insert_eq_ok_iff.1 entered
  constructor
  · rw [Register.keys_alter, h.stages, List.map_append, List.map_singleton, eraseDups_concat]
    simp only [List.mem_eraseDups]
  · intro s
    rw [shelf, Register.get?_alter, List.filter_append, List.map_append]
    by_cases here : s = e.stage
    · subst here
      have new : e.title ∉ (l.shelf e.stage).keys := Register.get?_eq_none_iff.1 free
      rw [if_pos rfl, Option.getD_some, Register.put, Register.keys_alter]
      change (if e.title ∈ (l.shelf e.stage).keys then _ else (l.shelf e.stage).keys ++ _) = _
      rw [if_neg new, h.titles]
      simp
    · have apart : [e].filter (·.stage = s) = [] := by simp [Ne.symm here]
      rw [if_neg here, apart, List.map_nil, List.append_nil]
      exact h.titles s

theorem Lists.foldlM {added : List LibraryEntry} (h : l.Lists es)
    (entered : added.foldlM Library.insert l = .ok l') : l'.Lists (es ++ added) := by
  induction added generalizing l es with
  | nil =>
    obtain rfl := Except.ok.inj entered
    rwa [List.append_nil]
  | cons e added ih =>
    rw [List.foldlM_cons, bind_eq_ok_iff] at entered
    obtain ⟨l₁, first, rest⟩ := entered
    rw [← List.singleton_append, ← List.append_assoc]
    exact ih (h.insert first) rest

theorem lists_ofEntries (made : ofEntries es = .ok l) : l.Lists es := lists_empty.foldlM made

/-- The titles are put together stage by stage. -/
theorem Lists.titles_eq (h : l.Lists es) :
    l.titles = (es.map LibraryEntry.stage).eraseDups.flatMap fun s =>
      (es.filter (·.stage = s)).map LibraryEntry.title := by
  have nodup : l.shelves.keys.Nodup := h.stages ▸ nodup_eraseDups _
  rw [Library.titles, Register.values_eq_map nodup .empty, List.flatMap_map, ← h.stages]
  exact List.flatMap_congr fun s _ => h.titles s

theorem Lists.titles_perm (h : l.Lists es) : l.titles.Perm (es.map LibraryEntry.title) := by
  rw [h.titles_eq, ← List.map_flatMap]
  refine (flatMap_filter_perm LibraryEntry.stage (nodup_eraseDups _) fun e he => ?_).map _
  exact List.mem_eraseDups.2 (List.mem_map_of_mem he)

theorem length_titles (l : Library) : l.titles.length = l.size := by
  have counted (shelves : List Shelf) (n : ℕ) :
      shelves.foldl (fun n shelf => n + shelf.size) n =
        n + (shelves.flatMap Register.keys).length := by
    induction shelves generalizing n with
    | nil => rfl
    | cons shelf shelves ih =>
      rw [List.foldl_cons, ih, List.flatMap_cons, List.length_append, Register.size, Register.keys,
        List.length_map, Nat.add_assoc]
  rw [size, counted, Nat.zero_add]
  rfl

/-! ## Entering -/

theorem insert_eq_error_iff {fault : DuplicateTitle} : l.insert e = .error fault ↔
    (l.stored? e.stage e.title).isSome ∧ fault = ⟨e.stage, e.title⟩ := by
  rw [insert]
  cases l.stored? e.stage e.title <;> simp [eq_comm]

/-- A place is taken by the entries that have it. -/
theorem isSome_stored?_iff (made : ofEntries es = .ok l) :
    (l.stored? e.stage e.title).isSome ↔ e.place ∈ es.map LibraryEntry.place := by
  simp only [Option.isSome_iff_exists, stored?_eq_some_iff made, List.mem_map]
  constructor
  · rintro ⟨m, mem⟩
    exact ⟨_, mem, rfl⟩
  · rintro ⟨⟨title, stage, m⟩, mem, same⟩
    obtain ⟨rfl, rfl⟩ := Prod.mk.inj same
    exact ⟨m, mem⟩

/-- Entries are entered if and only if their places differ. -/
theorem exists_ofEntries_iff : (∃ l, ofEntries es = .ok l) ↔
    (es.map LibraryEntry.place).Nodup := by
  induction es using List.reverseRecOn with
  | nil => exact ⟨fun _ => List.nodup_nil, fun _ => ⟨_, rfl⟩⟩
  | append_singleton es e ih =>
    have grown : ((es ++ [e]).map LibraryEntry.place).Nodup ↔
        e.place ∉ es.map LibraryEntry.place ∧ (es.map LibraryEntry.place).Nodup := by
      rw [List.map_append, List.map_singleton, ← List.concat_eq_append, List.nodup_concat]
    rw [grown, ← ih, ofEntries, List.foldlM_append]
    simp only [bind_eq_ok_iff, List.foldlM_cons, List.foldlM_nil]
    constructor
    · rintro ⟨l', l, made, l'', entered, -⟩
      refine ⟨fun old => ?_, l, made⟩
      have free := (insert_eq_ok_iff.1 entered).1
      rw [← isSome_stored?_iff made, free] at old
      cases old
    · rintro ⟨new, l, made⟩
      have free : l.stored? e.stage e.title = none := by
        rw [← Option.not_isSome_iff_eq_none, isSome_stored?_iff made]
        exact new
      exact ⟨_, l, made, _, insert_eq_ok_iff.2 ⟨free, rfl⟩, rfl⟩

/-- The first entry refuses the list whose place an earlier one has. -/
theorem ofEntries_eq_error_iff {fault : DuplicateTitle} : ofEntries es = .error fault ↔
    ∃ before e after, es = before ++ e :: after ∧ (before.map LibraryEntry.place).Nodup ∧
      e.place ∈ before.map LibraryEntry.place ∧ fault = ⟨e.stage, e.title⟩ := by
  rw [ofEntries, foldlM_eq_error_iff]
  constructor
  · rintro ⟨before, e, after, l, whole, made, refused⟩
    obtain ⟨old, rfl⟩ := insert_eq_error_iff.1 refused
    exact ⟨before, e, after, whole, exists_ofEntries_iff.1 ⟨l, made⟩,
      (isSome_stored?_iff made).1 old, rfl⟩
  · rintro ⟨before, e, after, whole, nodup, old, rfl⟩
    obtain ⟨l, made⟩ := exists_ofEntries_iff.2 nodup
    exact ⟨before, e, after, l, whole, made,
      insert_eq_error_iff.2 ⟨(isSome_stored?_iff made).2 old, rfl⟩⟩

/-! ## Looking up -/

theorem ofNotation_of_refused {stage : Stage} {text : String} {fault : NotationFault}
    (refused : Change.parseLead stage text = .error fault) (name : String)
    (classification : Classification) (statedTitle : Option String) :
    Method.ofNotation name text stage classification statedTitle = .error fault := by
  unfold Method.ofNotation
  split
  · rename_i lead h
    rw [refused] at h
    cases h
  · rename_i fault' h
    exact congrArg _ (Except.error.inj (h.symm.trans refused))

/-- An entry is found at the stage that its title names, and its notation is read there. -/
theorem lookup_of_mem {title : String} (made : ofEntries es = .ok l) (mem : e ∈ es)
    (titled : e.title = title) (names : NamesStage title e.stage) :
    (∀ changes (reads : Change.parseLead e.stage e.method.notated = .ok changes),
      l.lookup title = ⟨title, .found ⟨e.method.name, e.stage, changes,
        e.method.classification, some title, Change.parseLead_ne_nil reads⟩⟩) ∧
    ∀ fault, Change.parseLead e.stage e.method.notated = .error fault →
      l.lookup title = ⟨title, .unreadable e.method.notated fault⟩ := by
  subst titled
  have stage := stageOf?_eq_some_iff.2 names
  have kept : l.stored? e.stage e.title = some e.method := (stored?_eq_some_iff made).2 mem
  constructor
  · intro changes reads
    simp only [lookup, stage, kept, StoredMethod.expand, ofNotation_of_read reads]
  · intro fault refused
    simp only [lookup, stage, kept, StoredMethod.expand, ofNotation_of_refused refused]

/-- A title is missing which no entry has at the stage that it names. -/
theorem lookup_of_not_exists {title : String} (made : ofEntries es = .ok l)
    (none : ¬ ∃ e ∈ es, e.title = title ∧ NamesStage title e.stage) :
    l.lookup title = ⟨title, .missing []⟩ := by
  cases stage : stageOf? title with
  | none => simp only [lookup, stage]
  | some s =>
    have free : l.stored? s title = Option.none := by
      refine Option.eq_none_iff_forall_not_mem.2 fun m kept => none ?_
      exact ⟨_, (stored?_eq_some_iff made).1 kept, rfl, stageOf?_eq_some_iff.1 stage⟩
    simp only [lookup, stage, free]

/-- **A library is the catalogue of its entries.** It is refused if and only if two of them have the
same stage and title, and then for the first that comes to a place already taken. Otherwise it has
as many methods as entries; its titles are theirs, stage by stage as the stages come first. A title
looked up is missing if no entry has it at the stage that it names. If one has, the method is that
of the entry with the changes that its notation gives, or else the entry's notation is told with
what is wrong with it. -/
theorem catalogue_looks_up_entries (es : List LibraryEntry) :
    ((∃ fault, ofEntries es = .error fault) ↔ ¬ (es.map LibraryEntry.place).Nodup) ∧
    (∀ fault, ofEntries es = .error fault →
      ∃ before e after, es = before ++ e :: after ∧ (before.map LibraryEntry.place).Nodup ∧
        e.place ∈ before.map LibraryEntry.place ∧ fault = ⟨e.stage, e.title⟩) ∧
    ∀ l, ofEntries es = .ok l →
      l.size = es.length ∧
      l.titles.Perm (es.map LibraryEntry.title) ∧
      (l.titles = (es.map LibraryEntry.stage).eraseDups.flatMap fun s =>
        (es.filter (·.stage = s)).map LibraryEntry.title) ∧
      ∀ title,
        (l.lookup title = ⟨title, .missing []⟩ ↔
          ¬ ∃ e ∈ es, e.title = title ∧ NamesStage title e.stage) ∧
        ∀ e ∈ es, e.title = title → NamesStage title e.stage →
          (∀ changes (reads : Change.parseLead e.stage e.method.notated = .ok changes),
            l.lookup title = ⟨title, .found ⟨e.method.name, e.stage, changes,
              e.method.classification, some title, Change.parseLead_ne_nil reads⟩⟩) ∧
          ∀ fault, Change.parseLead e.stage e.method.notated = .error fault →
            l.lookup title = ⟨title, .unreadable e.method.notated fault⟩ := by
  refine ⟨?_, fun fault => ofEntries_eq_error_iff.1, fun l made => ?_⟩
  · rw [← exists_ofEntries_iff]
    cases ofEntries es <;> simp
  have lists := lists_ofEntries made
  have perm := lists.titles_perm
  have size : l.size = es.length := by
    rw [← length_titles, perm.length_eq, List.length_map]
  refine ⟨size, perm, lists.titles_eq, fun title => ⟨⟨?_, lookup_of_not_exists made⟩,
    fun e mem titled names => lookup_of_mem made mem titled names⟩⟩
  rintro missing ⟨e, mem, titled, names⟩
  obtain ⟨read, refused⟩ := lookup_of_mem made mem titled names
  cases reads : Change.parseLead e.stage e.method.notated with
  | ok changes => simp [read changes reads] at missing
  | error fault => simp [refused fault reads] at missing

/-- Two stages in turn, a title that stands at both of them, and a notation that is refused. -/
theorem catalogue_looks_up_entries_two_stages :
    let five : Stage := ⟨5, by decide, by decide⟩
    let six : Stage := ⟨6, by decide, by decide⟩
    let plain : LibraryEntry := ⟨"Plain Minor", six, ⟨"Plain", { base := .bob }, "-"⟩⟩
    let other : LibraryEntry := ⟨"Plain Minor", five, ⟨"Other", {}, "0"⟩⟩
    let odd : LibraryEntry := ⟨"Odd MINOR", six, ⟨"Odd", {}, "9"⟩⟩
    ∃ l fault fault' m, ofEntries [plain, other, odd] = .ok l ∧ l.size = 3 ∧
      l.titles = ["Plain Minor", "Odd MINOR", "Plain Minor"] ∧
      l.lookup "Plain Minor" = ⟨"Plain Minor", .found m⟩ ∧ m.name = "Plain" ∧
      l.lookup "Odd MINOR" = ⟨"Odd MINOR", .unreadable "9" fault⟩ ∧
      l.lookup "Plain Doubles" = ⟨"Plain Doubles", .missing []⟩ ∧
      ofEntries [plain, other, odd, other] = .error fault' := by
  intro five six plain other odd
  obtain ⟨l, made⟩ : ∃ l, ofEntries [plain, other, odd] = .ok l := ⟨_, rfl⟩
  obtain ⟨fault', refused⟩ : ∃ fault, ofEntries [plain, other, odd, other] = .error fault :=
    (catalogue_looks_up_entries _).1.2 (by decide)
  obtain ⟨size, -, titles, looked⟩ := (catalogue_looks_up_entries [plain, other, odd]).2.2 l made
  have minor : Stage.Names six "Minor".toList :=
    ⟨"Minor", [], _, [], rfl, (List.append_nil _).symm, by simp, by simp, rfl⟩
  have capitals : Stage.Names six "MINOR".toList :=
    ⟨"Minor", [], _, [], rfl, (List.append_nil _).symm, by simp, by simp, rfl⟩
  have reads : Change.parseLead six "-" = .ok [.cross six] := by rfl
  obtain ⟨fault, wrong⟩ : ∃ fault, Change.parseLead six "9" = .error fault := ⟨_, rfl⟩
  have found := ((looked "Plain Minor").2 plain (by simp) rfl
    ⟨_, ⟨by decide, .inr ⟨"Plain".toList, rfl⟩⟩, minor⟩).1 _ reads
  have unreadable := ((looked "Odd MINOR").2 odd (by simp) rfl
    ⟨_, ⟨by decide, .inr ⟨"Odd".toList, rfl⟩⟩, capitals⟩).2 _ wrong
  have missing := (looked "Plain Doubles").1.2 (by simp [plain, other, odd])
  exact ⟨l, fault, fault', _, made, size, titles, found, rfl, unreadable, missing, refused⟩

end Library

end Campanology
