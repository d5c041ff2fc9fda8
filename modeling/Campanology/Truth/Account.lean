import Campanology.Truth.Report

/-!
# Accounts of reports

An account is a report as somebody tells it. Its numbers and its word for the approach are taken on
trust; nothing of it is checked but that its rows are rows. Every report has its account, which
tells it as it is. Reports are worded through their accounts, so that what is told and what was
found read alike.

* `Report.account` is the account which is faithful to a report.
* `Account.text` is an account in words, `ToldClash.message` a clash as a reason for a refusal.
-/

namespace Campanology

/-- A position as it is told. -/
structure ToldPosition where
  lead : Int
  index : Int
  offset : Int
  deriving DecidableEq

/-- A clash as it is told. -/
structure ToldClash where
  row : Staged Row
  first : ToldPosition
  second : ToldPosition
  deriving DecidableEq

/-- A report as it is told. -/
structure Account where
  clashes : List ToldClash
  /-- How many rows or pairs of heads were looked at. -/
  examined : Int
  /-- The approach in writing. -/
  approach : String
  deriving DecidableEq

/-! ## Telling a report -/

/-- A position, told as it is. -/
def Position.told (p : Position) : ToldPosition := ⟨p.lead, p.index, p.offset⟩

/-- A clash, told as it is. -/
def Clash.told (c : Clash (Staged Row)) : ToldClash := ⟨c.row, c.first.told, c.second.told⟩

/-- A report, told as it is. -/
def Report.account (r : Report (Staged Row)) : Account :=
  ⟨r.clashes.map Clash.told, r.examined, r.approach.text⟩

/-! ## Wording -/

def ToldPosition.text (p : ToldPosition) : String := Position.words p.lead p.index

namespace ToldClash

def text (c : ToldClash) : String :=
  s!"{c.row.val.text} at ({c.first.text}) and ({c.second.text})"

/-- A clash as a reason to refuse the ringing. -/
def message (c : ToldClash) : String :=
  s!"Row {c.row.val.text} appears at {c.first.text} and {c.second.text}"

end ToldClash

namespace Account

/-- Whether the ringing is told to be true. -/
def isTrue (a : Account) : Bool := a.clashes.isEmpty

/-- Telling a report keeps its verdict. -/
theorem isTrue_account (r : Report (Staged Row)) : r.account.isTrue = r.isTrue := by
  simp [isTrue, Report.isTrue, Report.account]

def text (a : Account) : String :=
  match a.clashes with
  | [] => s!"true ({a.examined} checked, {a.approach})"
  | c :: _ => s!"false: {c.text} ({a.clashes.length} collisions, {a.approach})"

end Account

end Campanology
