import Campanology.Row.Basic

/-!
# Reading rows

A row is read from the symbols of its bells, or made from their numbers. Both ask for as many bells
as the stage has and that each rings once, and otherwise tell the first thing that is wrong: the
length first, then symbols which are none, and then, place by place, a bell that the stage does not
have or one that rang before.

* `ofNumbers` makes a row of a stage from numbers.
* `parse` reads a row of a stage; `parseAny` and `ofNumbersAny` take the stage from the length.
-/

namespace Campanology

/-- What is wrong with a proposed row. -/
inductive RowFault
  | empty
  | tooMany (count : Nat)
  /-- The numbers are not as many as the stage has bells. -/
  | wrongCount (count : Nat) (stage : Stage)
  /-- The text is not as long as the stage has bells. -/
  | wrongLength (text : String) (stage : Stage)
  | unknownSymbol (symbol : Char) (place : Nat)
  | outOfRange (bell : Int) (place : Nat) (stage : Stage)
  /-- A bell rings a second time, while the bells `missing` do not ring at all. -/
  | repeated (bell first second : Nat) (missing : List Nat)
  deriving DecidableEq

namespace RowFault

/-- The place at fault; a wrong length has none. -/
def place? : RowFault → Option Nat
  | unknownSymbol _ place => some place
  | outOfRange _ place _ => some place
  | repeated _ _ second _ => some second
  | _ => none

/-- The bells known to be missing. -/
def missing : RowFault → List Nat
  | repeated _ _ _ missing => missing
  | _ => []

/-- What kind of fault it is, in a word. -/
def kind : RowFault → String
  | unknownSymbol .. => "unknown_symbol"
  | outOfRange .. => "out_of_range"
  | repeated .. => "duplicate"
  | _ => "length"

def message : RowFault → String
  | empty => "Row cannot be empty"
  | tooMany count => s!"Row has {count} bells; at most {maxBells} are supported"
  | wrongCount count stage => s!"Row has {count} bells but stage has {stage.bells}"
  | wrongLength text stage =>
    s!"Row {Text.quoted text} has {text.length} bells but stage has {stage.bells}"
  | unknownSymbol symbol place =>
    s!"Unknown bell symbol {Text.quotedChar symbol} at position {place}"
  | outOfRange bell place stage =>
    s!"Bell {bell} at position {place} is out of range for {stage.bells} bells"
  | repeated bell first second missing =>
    let names := ", ".intercalate (missing.map fun b => Text.quotedChar (Symbol.ofNat b))
    let name := Text.quotedChar (Symbol.ofNat bell)
    s!"Bell {name} appears at positions {first} and {second}; missing bells: {names}"

end RowFault

namespace Row

/-! ## From numbers -/

/-- The bells of a stage which are not among the numbers. -/
def missingFrom (s : Stage) (bs : List Int) : List Nat :=
  (List.range s.bells).filter fun b => (b : Int) ∉ bs

/-- The first thing wrong in `rest`, which follows the bells `before`, the whole being `bs`. -/
def offence (s : Stage) (bs : List Int) : (before rest : List Int) → Option RowFault
  | _, [] => none
  | before, b :: rest =>
    if b < 0 ∨ s.bells ≤ b then some (.outOfRange b before.length s)
    else if b ∈ before then
      some (.repeated b.toNat (before.idxOf b) before.length (missingFrom s bs))
    else offence s bs (before ++ [b]) rest

theorem bounds_of_offence {s : Stage} {bs before rest : List Int}
    (h : offence s bs before rest = none) : ∀ b ∈ rest, 0 ≤ b ∧ b < s.bells := by
  induction rest generalizing before with
  | nil => simp
  | cons b rest ih =>
    simp only [offence] at h
    split at h
    · cases h
    split at h
    · cases h
    rename_i hb _
    intro c hc
    rcases List.mem_cons.1 hc with rfl | hc
    · omega
    · exact ih h c hc

theorem nodup_of_offence {s : Stage} {bs before rest : List Int}
    (h : offence s bs before rest = none) : rest.Nodup ∧ ∀ b ∈ rest, b ∉ before := by
  induction rest generalizing before with
  | nil => simp
  | cons b rest ih =>
    simp only [offence] at h
    split at h
    · cases h
    split at h
    · cases h
    rename_i _ hb
    obtain ⟨nodup, apart⟩ := ih h
    refine ⟨List.nodup_cons.2 ⟨fun hm => apart b hm (by simp), nodup⟩, ?_⟩
    intro c hc
    rcases List.mem_cons.1 hc with rfl | hc
    · exact hb
    · exact fun hm => apart c hc (by simp [hm])

/-- The row of a stage in which the numbers are the bells. -/
def ofNumbers (s : Stage) (bs : List Int) : Except RowFault (Row s) :=
  if len : bs.length = s.bells then
    match h : offence s bs [] bs with
    | some fault => .error fault
    | none =>
      have bound (p : Fin s.bells) : 0 ≤ bs[p] ∧ bs[p] < s.bells :=
        bounds_of_offence h _ (List.getElem_mem _)
      .ok <| ofFn (fun p => ⟨bs[p].toNat, by have := bound p; omega⟩) fun p q hpq => by
        have hp := bound p
        have hq := bound q
        simp only [Fin.mk.injEq] at hpq
        have same : bs[p] = bs[q] := by omega
        exact Fin.ext ((List.getElem_inj (nodup_of_offence h).1).1 same)
  else .error (.wrongCount bs.length s)

/-- The stage of a row of so many bells. -/
def stageOf (count : Nat) : Except RowFault Stage :=
  if pos : 0 < count then
    if le : count ≤ maxBells then .ok ⟨count, pos, le⟩ else .error (.tooMany count)
  else .error .empty

/-- The row in which the numbers are the bells, of the stage that has so many. -/
def ofNumbersAny (bs : List Int) : Except RowFault (Staged Row) := do
  let s ← stageOf bs.length
  return .of (← ofNumbers s bs)

/-! ## From text -/

/-- The numbers of the symbols that stand from `place` on. -/
def numbers : (place : Nat) → List Char → Except RowFault (List Int)
  | _, [] => .ok []
  | place, c :: cs =>
    match Symbol.number? c with
    | none => .error (.unknownSymbol c place)
    | some b => do return (b : Int) :: (← numbers (place + 1) cs)

/-- The row of a stage which a text shows. -/
def parse (s : Stage) (text : String) : Except RowFault (Row s) :=
  if text.length = s.bells then do ofNumbers s (← numbers 0 text.toList)
  else .error (.wrongLength text s)

/-- The row which a text shows, of the stage that has so many bells. -/
def parseAny (text : String) : Except RowFault (Staged Row) := do
  let s ← stageOf text.length
  return .of (← parse s text)

end Row

end Campanology
