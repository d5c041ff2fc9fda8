import Campanology.Ringing.Settings
import Campanology.Ringing.Touch

/-!
# Ringing a lead over and over

From a seed the changes of a lead are made in their order, and then again from the first one, the
end of the lead being marked each time; until as many rows or leads are rung as the settings say, or
until a lead leads to rounds. In the last case another lead is begun only if neither cap forbids it:
if fewer leads are complete than the settings allow, and the rows with those of the lead are no more
than they allow. So there is a budget of leads, fixed beforehand (`Settings.leadBudget`).

* `Touch.ringLead` rings one lead, `Touch.ringLeads` a number of them, `Touch.ringToRounds` what the
  budget allows.
* `ringing` and `ringingLeads` are the blocks that are rung so from a seed.
* `ring`, `ringLeads` and `ringToRounds` ring them for a seed and changes of any stages.
-/

namespace Campanology

/-- The ringing did not come to rounds: so many rows and leads were rung, up to the last row. -/
structure Unclosed (s : Stage) where
  rows : Nat
  leads : Nat
  last : Row s
  deriving DecidableEq

/-- Why a block is not rung. -/
inductive RingingFault
  | settings (f : SettingsFault)
  | noChanges
  | mismatch (m : StageMismatch)
  | doesNotClose (rows leads : Nat) (last : Staged Row)
  deriving DecidableEq

/-- Ringing that did not come to rounds, as a reason for there being no block. -/
def Unclosed.fault {s : Stage} (f : Unclosed s) : RingingFault :=
  .doesNotClose f.rows f.leads (.of f.last)

namespace Touch

variable {s : Stage}

/-- Makes changes one after another. -/
def ringAll (t : Touch s) (cs : List (Change s)) : Touch s := cs.foldl ring t

/-- Rings a lead and marks its end. -/
def ringLead (t : Touch s) (lead : List (Change s)) : Touch s :=
  let t := t.ringAll lead
  if h : t.lastEnd < t.rows.size then t.closeLead h else t

/-- Rings a number of leads. -/
def ringLeads (lead : List (Change s)) : (count : Nat) → Touch s → Touch s
  | 0, t => t
  | count + 1, t => ringLeads lead count (t.ringLead lead)

/-- Rings leads until one leads to rounds, within a budget of leads. -/
def ringToRounds (lead : List (Change s)) :
    (budget : Nat) → Touch s → Except (Unclosed s) (Touch s)
  | 0, t => .error ⟨t.rows.size, t.leadEnds.size, t.last⟩
  | budget + 1, t =>
    let t := t.ringLead lead
    if t.last.isRounds then .ok t else ringToRounds lead budget t

end Touch

/-! ## Blocks of one stage -/

variable {s : Stage}

/-- The block rung from a seed by repeating a lead, which has changes, as the settings say. -/
def ringing (seed : Row s) (lead : List (Change s)) (settings : Settings) :
    Except (Unclosed s) (Block s) :=
  let t := Touch.start seed
  match settings.rule with
  | .rowCount =>
    let count := (settings.rowCount.getD 0).toNat
    let leads := count / lead.length
    .ok ((t.ringLeads lead leads).ringAll (lead.take (count % lead.length))).block
  | .leadCount =>
    .ok (t.ringLeads lead (settings.leadCount.getD 0).toNat).block
  | .untilRounds =>
    (t.ringToRounds lead (settings.leadBudget lead.length)).map Touch.block

/-- The block of a number of leads rung from a seed. -/
def ringingLeads (seed : Row s) (lead : List (Change s)) (count : Nat) : Block s :=
  ((Touch.start seed).ringLeads lead count).block

/-! ## Blocks of any stage -/

/-- Rings a block from a seed by repeating changes, of which there must be some, all of its stage;
until rounds, if nothing else is said. -/
def ring (seed : Staged Row) (changes : List (Staged Change)) (settings : Option Settings) :
    Except RingingFault (Staged Block) := do
  if changes = [] then throw .noChanges
  let lead ← (changes.mapM fun c : Staged Change =>
    c.require seed.stage "generate").mapError .mismatch
  let block ← (ringing seed.val lead (settings.getD .standard)).mapError Unclosed.fault
  return .of block

/-- Rings a number of leads from a seed. -/
def ringLeads (seed : Staged Row) (changes : List (Staged Change)) (count : Int) :
    Except RingingFault (Staged Block) := do
  let settings ← (Settings.leads count).mapError .settings
  ring seed changes settings

/-- Rings from a seed until rounds, within the caps of the settings. -/
def ringToRounds (seed : Staged Row) (changes : List (Staged Change))
    (settings : Option Settings) : Except RingingFault (Staged Block) :=
  ring seed changes ((settings.getD .standard).toRounds)

end Campanology
