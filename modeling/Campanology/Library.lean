import Campanology.Matcher
import Campanology.Method.Basic
import Campanology.Register

/-!
# A library of methods

A library keeps methods by stage and, within a stage, by title, in the order in which they came.
What is kept is the name, the class and the notation of a method; the notation is read only when the
method is asked for, and may then turn out to be no notation.

A title is looked up among the methods of one stage only, the one that its last word names. When
there is no such method a matcher can find the nearest titles of the whole library.

* `Library.ofEntries` builds a library, in which a title stands only once at a stage.
* `lookup` looks a title up, `lookupSuggesting` suggests titles when there is none, as many as are
  asked for.
* `Answer.method` and `Answer.methodOrSuggestions` take the answer as a method.
-/

namespace Campanology

/-- A method as it is kept. -/
structure StoredMethod where
  name : String
  classification : Classification
  notated : String
  deriving DecidableEq

/-- The method in full. -/
def StoredMethod.expand (m : StoredMethod) (stage : Stage) (title : String) :
    Except NotationFault Method :=
  Method.ofNotation m.name m.notated stage m.classification (some title)

/-- A title and its distance from the one looked for. A matcher measures the distance; a suggestion
of another origin may come with any number. -/
abbrev Suggestion := String × Int

/-- A title that a matcher found. -/
def Match.suggestion (t : Match) : Suggestion := (t.choice, t.distance)

/-! ## Answers -/

/-- What came of looking a title up. -/
inductive Finding
  | found (method : Method)
  /-- There is such a method, but its notation is refused. -/
  | unreadable (notated : String) (fault : NotationFault)
  | missing (suggestions : List Suggestion)

/-- The title looked up, and what came of it. -/
structure Answer where
  title : String
  finding : Finding

/-- No method has the title; some may have a similar one. -/
structure NotFound where
  title : String
  suggestions : List Suggestion
  deriving DecidableEq

def NotFound.message (f : NotFound) : String :=
  let hint := match f.suggestions with
    | [] => ""
    | ss =>
      let titles := ss.map fun s : Suggestion => Text.quoted s.1
      "; did you mean " ++ ", ".intercalate titles ++ "?"
  s!"No method titled {Text.quoted f.title}{hint}"

namespace Answer

/-- Whether there is no method of the title. -/
def isMissing (a : Answer) : Bool :=
  match a.finding with
  | .missing _ => true
  | _ => false

/-- Makes other suggestions, if the title is missing. -/
def mapMissingM {m : Type → Type} [Monad m] (f : List Suggestion → m (List Suggestion))
    (a : Answer) : m Answer :=
  match a.finding with
  | .missing suggestions => return { a with finding := .missing (← f suggestions) }
  | _ => return a

/-- Changes the suggestions, if the title is missing. -/
def mapMissing (f : List Suggestion → List Suggestion) (a : Answer) : Answer :=
  Id.run (a.mapMissingM fun suggestions => pure (f suggestions))

/-- The method; everything else is a fault. -/
def method (a : Answer) : Except (NotationFault ⊕ NotFound) Method :=
  match a.finding with
  | .found method => .ok method
  | .unreadable _ fault => .error (.inl fault)
  | .missing suggestions => .error (.inr ⟨a.title, suggestions⟩)

/-- The method, or else the suggestions; only notation that is refused is a fault. -/
def methodOrSuggestions (a : Answer) : Except NotationFault (Method ⊕ List Suggestion) :=
  match a.finding with
  | .found method => .ok (.inl method)
  | .unreadable _ fault => .error fault
  | .missing suggestions => .ok (.inr suggestions)

end Answer

/-! ## Libraries -/

/-- The methods of one stage by title. -/
abbrev Shelf := Register String StoredMethod

/-- A library: the methods by stage. -/
structure Library where
  shelves : Register Stage Shelf

/-- A title to be entered which stands at its stage already. -/
structure DuplicateTitle where
  stage : Stage
  title : String
  deriving DecidableEq

def DuplicateTitle.message (f : DuplicateTitle) : String :=
  s!"Duplicate method title at {f.stage.title}: {Text.quoted f.title}"

/-- One method for a library. -/
structure LibraryEntry where
  title : String
  stage : Stage
  method : StoredMethod
  deriving DecidableEq

namespace Library

/-- The library without methods. -/
def empty : Library := ⟨.empty⟩

/-- The methods of a stage. -/
def shelf (l : Library) (stage : Stage) : Shelf := (l.shelves.get? stage).getD .empty

/-- The method that stands at a stage under a title. -/
def stored? (l : Library) (stage : Stage) (title : String) : Option StoredMethod :=
  (l.shelf stage).get? title

/-- Enters a method under a title which does not stand at its stage yet. -/
def insert (l : Library) (e : LibraryEntry) : Except DuplicateTitle Library :=
  if (l.stored? e.stage e.title).isSome then .error ⟨e.stage, e.title⟩
  else .ok ⟨l.shelves.alter e.stage fun shelf => (shelf.getD .empty).put e.title e.method⟩

/-- The library of some methods, in their order. -/
def ofEntries (es : List LibraryEntry) : Except DuplicateTitle Library := es.foldlM insert empty

/-- The library of given shelves; of two shelves of a stage, or two methods of a title on a shelf,
the later one counts. -/
def ofShelves (shelves : List (Stage × List (String × StoredMethod))) : Library :=
  ⟨.ofList (shelves.map fun s => (s.1, .ofList s.2))⟩

/-- The number of methods. -/
def size (l : Library) : Nat := l.shelves.values.foldl (fun n shelf => n + shelf.size) 0

/-- The titles, stage by stage. -/
def titles (l : Library) : List String := l.shelves.values.flatMap Register.keys

/-- Whether a title stands at any stage. -/
def contains (l : Library) (title : String) : Bool := title ∈ l.titles

/-! ## Looking up -/

/-- What follows the last space of a text; all of it if there is none. -/
def lastWord (text : List Char) : List Char :=
  (text.reverse.takeWhile (· ≠ ' ')).reverse

/-- The stage that the last word of a title names. -/
def stageOf? (title : String) : Option Stage :=
  Stage.ofName? (String.ofList (lastWord title.toList))

/-- Looks a title up. -/
def lookup (l : Library) (title : String) : Answer :=
  let finding := match stageOf? title with
    | none => .missing []
    | some stage =>
      match l.stored? stage title with
      | none => .missing []
      | some m =>
        match m.expand stage title with
        | .ok method => .found method
        | .error fault => .unreadable m.notated fault
  ⟨title, finding⟩

/-- The titles that a matcher puts nearest to a text, at most `count`. For none it is not asked. -/
def suggest (l : Library) (m : Matcher) (title : String) (count : Int) :
    Except MatcherFault (List Suggestion) :=
  if count ≤ 0 then .ok []
  else (m.search m.distance title l.titles count).map (List.map Match.suggestion)

/-- Looks a title up, and suggests similar ones if it is missing. -/
def lookupSuggesting (l : Library) (m : Matcher) (title : String) (count : Int) :
    Except MatcherFault Answer :=
  (l.lookup title).mapMissingM fun _ => l.suggest m title count

end Library

end Campanology
