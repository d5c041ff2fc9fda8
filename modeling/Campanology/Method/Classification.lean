/-!
# Classes of methods

A method is of a class, which stands in its title unless it is that of principles, and which may be
qualified: jump, differential, little.
-/

namespace Campanology

/-- The class of a method. -/
inductive MethodKind
  | principle
  | bob
  | place
  | trebleBob
  | surprise
  | delight
  | treblePlace
  | alliance
  | hybrid
  | slowCourse
  deriving DecidableEq

namespace MethodKind

def text : MethodKind → String
  | principle => "Principle"
  | bob => "Bob"
  | place => "Place"
  | trebleBob => "Treble Bob"
  | surprise => "Surprise"
  | delight => "Delight"
  | treblePlace => "Treble Place"
  | alliance => "Alliance"
  | hybrid => "Hybrid"
  | slowCourse => "Slow Course"

/-- All classes. -/
def all : List MethodKind :=
  [principle, bob, place, trebleBob, surprise, delight, treblePlace, alliance, hybrid, slowCourse]

/-- The class of a given name. -/
def ofText? (name : String) : Option MethodKind := all.find? fun c => c.text = name

end MethodKind

/-- A class with its qualifiers. -/
structure Classification where
  base : MethodKind := .principle
  little : Bool := false
  differential : Bool := false
  jump : Bool := false
  deriving DecidableEq

namespace Classification

/-- The words of a class in a title. -/
def words (c : Classification) : List String :=
  (if c.jump then ["Jump"] else []) ++ (if c.differential then ["Differential"] else []) ++
    (if c.little then ["Little"] else []) ++ (if c.base = .principle then [] else [c.base.text])

def text (c : Classification) : String := " ".intercalate c.words

end Classification

end Campanology
