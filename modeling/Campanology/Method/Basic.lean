import Campanology.Change.Lead
import Campanology.Ringing.Repetition
import Campanology.Method.Classification

/-!
# Methods

A method is a named lead: the changes that are rung over and over. Ringing one lead from rounds
leads to the *lead head*; the *plain course* goes on until a lead head is rounds, which takes as
many leads as the order of the lead head. Begun from another row, a *course head*, it is one of the
other courses.

* `Method.make` and `Method.ofNotation` make a method of changes and of notation.
* `title` is the name with the class and the stage, unless a title is stated.
* `leadFrom`, `plainCourse` and `courseOf` ring it.
-/

namespace Campanology

/-- A method. -/
structure Method where
  name : String
  stage : Stage
  changes : List (Change stage)
  classification : Classification
  /-- The title to use in place of the usual one. -/
  statedTitle : Option String
  changes_ne_nil : changes ≠ []

/-- Why changes make no method. -/
inductive MethodFault
  | noChanges (name : String)
  | mismatch (m : StageMismatch)
  deriving DecidableEq

namespace Method

/-! ## Making methods -/

/-- The method of a lead, which must have changes, all of its stage. -/
def make (name : String) (stage : Stage) (changes : List (Staged Change))
    (classification : Classification) (statedTitle : Option String) :
    Except MethodFault Method := do
  let lead ← (changes.mapM fun c : Staged Change =>
    c.require stage ("method " ++ Text.quoted name)).mapError .mismatch
  if h : lead ≠ [] then return ⟨name, stage, lead, classification, statedTitle, h⟩
  else throw (.noChanges name)

/-- The method of a lead in notation. -/
def ofNotation (name text : String) (stage : Stage) (classification : Classification)
    (statedTitle : Option String) : Except NotationFault Method :=
  match h : Change.parseLead stage text with
  | .ok lead => .ok ⟨name, stage, lead, classification, statedTitle, Change.parseLead_ne_nil h⟩
  | .error fault => .error fault

/-! ## Describing methods -/

/-- The title that a name, class and stage make. -/
def usualTitle (name : String) (classification : Classification) (stage : Stage) : String :=
  " ".intercalate ([name, classification.text, stage.title].filter (· ≠ ""))

/-- The full title. -/
def title (m : Method) : String :=
  m.statedTitle.getD (usualTitle m.name m.classification m.stage)

/-- The lead in notation. -/
def notationText (m : Method) : String := Change.renderLead m.changes

/-- The number of changes in a lead. -/
def leadLength (m : Method) : Nat := m.changes.length

/-- The row to which one lead leads from rounds. -/
def leadHead (m : Method) : Row m.stage :=
  m.changes.foldl (fun r c => c.next r) (Row.rounds m.stage)

/-- The number of leads in the plain course. -/
def leadsPerCourse (m : Method) : Nat := m.leadHead.order

/-- The number of rows in the plain course. -/
def courseLength (m : Method) : Nat := m.leadLength * m.leadsPerCourse

/-! ## Ringing methods -/

/-- One lead from a seed. -/
def leadFrom (m : Method) (seed : Row m.stage) : Block m.stage :=
  ringingLeads seed m.changes 1

/-- One lead from a seed of any stage. -/
def lead (m : Method) (seed : Staged Row) : Except RingingFault (Staged Block) :=
  ringLeads seed (m.changes.map .of) 1

/-- The plain course, within the caps of the settings. -/
def plainCourse (m : Method) (settings : Option Settings) :
    Except (Unclosed m.stage) (Block m.stage) :=
  ringing (Row.rounds m.stage) m.changes ((settings.getD .standard).toRounds)

/-- The course of a course head: the plain course, within the usual caps, begun from that row. -/
def courseOf (m : Method) (head : Staged Row) : Except RingingFault (Block m.stage) := do
  let course ← (m.plainCourse none).mapError Unclosed.fault
  let head ← (head.require m.stage "pre_multiply").mapError .mismatch
  return course.begunFrom head

end Method

end Campanology
