import Campanology.Truth.Account
import Campanology.Truth.Options
import Campanology.Library
import Campanology.Row.Parser
import Campanology.Row.Query

/-!
# Faults

Every part of the library tells the causes of its refusals in a type of its own. A `Fault` is any of
them, for operations which may run into several; each cause keeps its wording (`Fault.message`).
-/

namespace Campanology

/-- The sets of names that a text may have to be one of. -/
inductive Vocabulary
  | stopRule
  | approach
  | unitKind
  | methodKind
  deriving DecidableEq

def Vocabulary.text : Vocabulary → String
  | stopRule => "Termination"
  | approach => "Strategy"
  | unitKind => "Unit"
  | methodKind => "MethodClass"

/-- A cause of refusal. -/
inductive Fault
  | bell (f : BellFault)
  | stage (f : StageFault)
  | mismatch (m : StageMismatch)
  | row (f : RowFault)
  | rowQuery (f : RowQueryFault)
  | notated (f : NotationFault)
  /-- A refusal of notation worded by the caller. -/
  | worded (reason text token : String) (index : Int)
  | block (f : BlockFault)
  | touch (f : TouchFault)
  | settings (f : SettingsFault)
  | noChanges
  | doesNotClose (rows leads : Int) (last : Staged Row)
  | emptyMethod (name : String)
  | falseness (c : ToldClash)
  | workers (f : WorkersFault)
  /-- Work was handed to a queue which has been shut down. -/
  | queueClosed
  | notFound (f : NotFound)
  | matcher (f : MatcherFault)
  | duplicate (f : DuplicateTitle)
  /-- The number is beyond all binary64 numbers. -/
  | numberTooLarge
  | unknownName (name : String) (of : Vocabulary)
  deriving DecidableEq

namespace Fault

def message : Fault → String
  | bell f => f.message
  | stage f => f.message
  | mismatch m => m.message
  | row f => f.message
  | rowQuery f => f.message
  | notated f => f.message
  | worded reason text token index => NotationFault.wording reason text token index
  | block f => f.message
  | touch f => f.message
  | settings f => f.message
  | noChanges => "Cannot generate a block from an empty notation sequence"
  | doesNotClose rows leads last =>
    "Block did not return to rounds within the safety cap " ++
      s!"({rows} rows, {leads} leads, last row {last.val.text})"
  | emptyMethod name => s!"Method {Text.quoted name} has no place notation"
  | falseness c => c.message
  | workers f => f.message
  | queueClosed => "cannot schedule new futures after shutdown"
  | notFound f => f.message
  | matcher f => f.message
  | duplicate f => f.message
  | numberTooLarge => "int too large to convert to float"
  | unknownName name vocabulary => s!"{Text.quoted name} is not a valid {vocabulary.text}"

end Fault

/-! ## Every cause as a fault -/

/-- A type of causes. -/
class Cause (ε : Type) where
  fault : ε → Fault

instance : Cause BellFault := ⟨.bell⟩
instance : Cause StageFault := ⟨.stage⟩
instance : Cause StageMismatch := ⟨.mismatch⟩
instance : Cause RowFault := ⟨.row⟩
instance : Cause RowQueryFault := ⟨.rowQuery⟩
instance : Cause NotationFault := ⟨.notated⟩
instance : Cause SettingsFault := ⟨.settings⟩
instance : Cause WorkersFault := ⟨.workers⟩
instance : Cause NotFound := ⟨.notFound⟩
instance : Cause MatcherFault := ⟨.matcher⟩
instance : Cause DuplicateTitle := ⟨.duplicate⟩

instance : Cause BlockFault where
  fault
    | .mismatch m => .mismatch m
    | f => .block f

instance : Cause TouchFault where
  fault
    | .mismatch m => .mismatch m
    | f => .touch f

instance : Cause RingingFault where
  fault
    | .settings f => .settings f
    | .noChanges => .noChanges
    | .mismatch m => .mismatch m
    | .doesNotClose rows leads last => .doesNotClose rows leads last

instance : Cause MethodFault where
  fault
    | .noChanges name => .emptyMethod name
    | .mismatch m => .mismatch m

instance {s : Stage} : Cause (Unclosed s) where
  fault f := .doesNotClose f.rows f.leads (.of f.last)

instance {ε δ : Type} [Cause ε] [Cause δ] : Cause (ε ⊕ δ) where
  fault
    | .inl f => Cause.fault f
    | .inr f => Cause.fault f

/-- A result with a cause of some type as one with any fault. -/
def orFault {ε α : Type} [Cause ε] (x : Except ε α) : Except Fault α := x.mapError Cause.fault

/-- Refuses ringing which is false, on account of the first clash. -/
def Account.require (a : Account) : Except Fault Unit :=
  match a.clashes with
  | [] => .ok ()
  | c :: _ => .error (.falseness c)

end Campanology
