/-!
# When to stop ringing

Ringing stops after a number of rows, after a number of leads, or with the first lead that leads to
rounds. The last of these may never happen, and so it is capped, by a number of rows and a number of
leads. Settings may give the numbers of the rules that they do not use, which are then ignored; they
must give the one that they use.
-/

namespace Campanology

/-- The rule by which ringing stops. -/
inductive StopRule
  | rowCount
  | leadCount
  | untilRounds
  deriving DecidableEq

namespace StopRule

def text : StopRule → String
  | rowCount => "row_count"
  | leadCount => "lead_count"
  | untilRounds => "until_rounds"

/-- The rule of a given name. -/
def ofText? (name : String) : Option StopRule :=
  [rowCount, leadCount, untilRounds].find? fun t => t.text = name

end StopRule

/-- Why settings are refused, with the number at fault. -/
inductive SettingsFault
  | rowCount (given : Option Int)
  | leadCount (given : Option Int)
  | maxRows (given : Int)
  | maxLeads (given : Int)
  deriving DecidableEq

namespace SettingsFault

/-- A number which may not have been given. -/
def shown : Option Int → String
  | some n => toString n
  | none => "None"

def message : SettingsFault → String
  | rowCount given => s!"row_count must be non-negative for ROW_COUNT: {shown given}"
  | leadCount given => s!"lead_count must be non-negative for LEAD_COUNT: {shown given}"
  | maxRows given => s!"max_rows must be positive: {given}"
  | maxLeads given => s!"max_leads must be positive: {given}"

end SettingsFault

/-- The most rows rung until rounds, if nothing else is said. -/
def defaultMaxRows : Nat := 1000000

/-- The most leads rung until rounds, if nothing else is said. -/
def defaultMaxLeads : Nat := 100000

/-- Whether a number is given and not negative. -/
def isCount (n : Option Int) : Bool := n.any (0 ≤ ·)

/-- Settings for ringing a block. -/
structure Settings where
  rule : StopRule
  rowCount : Option Int
  leadCount : Option Int
  maxRows : Nat
  maxLeads : Nat
  rowCount_given : rule = .rowCount → isCount rowCount
  leadCount_given : rule = .leadCount → isCount leadCount
  maxRows_pos : 0 < maxRows
  maxLeads_pos : 0 < maxLeads
  deriving DecidableEq

namespace Settings

/-- Settings with the given numbers. -/
def make (rule : StopRule) (rowCount leadCount : Option Int) (maxRows maxLeads : Int) :
    Except SettingsFault Settings :=
  if hr : rule = .rowCount → isCount rowCount then
    if hl : rule = .leadCount → isCount leadCount then
      if hmr : 0 < maxRows then
        if hml : 0 < maxLeads then
          .ok ⟨rule, rowCount, leadCount, maxRows.toNat, maxLeads.toNat, hr, hl,
            by omega, by omega⟩
        else .error (.maxLeads maxLeads)
      else .error (.maxRows maxRows)
    else .error (.leadCount leadCount)
  else .error (.rowCount rowCount)

/-- Ring a number of rows. -/
def rows (count : Int) : Except SettingsFault Settings :=
  make .rowCount (some count) none defaultMaxRows defaultMaxLeads

/-- Ring a number of leads. -/
def leads (count : Int) : Except SettingsFault Settings :=
  make .leadCount none (some count) defaultMaxRows defaultMaxLeads

/-- Ring until rounds within the given caps. -/
def capped (maxRows maxLeads : Nat) (hr : 0 < maxRows) (hl : 0 < maxLeads) : Settings :=
  ⟨.untilRounds, none, none, maxRows, maxLeads, nofun, nofun, hr, hl⟩

/-- Ring until rounds within the usual caps. -/
def standard : Settings :=
  capped defaultMaxRows defaultMaxLeads (by decide) (by decide)

/-- The settings which ring until rounds within the caps of the given ones. -/
def toRounds (c : Settings) : Settings :=
  if c.rule = .untilRounds then c
  else capped c.maxRows c.maxLeads c.maxRows_pos c.maxLeads_pos

/-- How many leads of `length` rows may be rung until rounds. -/
def leadBudget (c : Settings) (length : Nat) : Nat := min c.maxLeads (c.maxRows / length)

end Settings

end Campanology
