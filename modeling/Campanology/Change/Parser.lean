import Campanology.Change.Basic

/-!
# Reading one change

A change is written as a cross, or as the symbols of the places made in it, in any order, any of
them as often as one likes. The cross is `-`, and also `x` or `X` as long as the stage has no place
of that symbol. A refusal tells the text it is about, the token in it which is at fault, and where
in the text that token, or the symbol at fault in it, stands.

* `ofPlaces` makes the change with the given places.
* `parse` reads a text which is one change; `ofToken` reads a piece of a longer text.
-/

namespace Campanology

/-- Why a change or a lead of changes is refused. -/
inductive NotationReason
  /-- There is nothing where a change should be. -/
  | noChange
  /-- There are no changes in a block of notation. -/
  | noBlock
  | crossAmongPlaces
  | unknownPlace (symbol : Char)
  /-- The symbol is of a place above the stage. -/
  | symbolOutOfRange (symbol : Char) (stage : Stage)
  /-- The stage has no place of that number. -/
  | placeOutOfRange (place : Int) (stage : Stage)
  /-- The place is not made and has no neighbour left to swap with. -/
  | unpaired (place : Nat)
  deriving DecidableEq

def NotationReason.message : NotationReason → String
  | noChange => "Empty place notation"
  | noBlock => "Empty notation block"
  | crossAmongPlaces => "Cross symbol cannot be combined with places"
  | unknownPlace symbol => s!"Unknown place symbol {Text.quotedChar symbol}"
  | symbolOutOfRange symbol stage =>
    s!"Place {Text.quotedChar symbol} is out of range [0, {stage.bells})"
  | placeOutOfRange place stage => s!"Place {place} is out of range for {stage.bells} bells"
  | unpaired place => s!"Position {place} cannot be paired with a neighbour"

/-- A refusal of notation: what is wrong, and with which token, at which index of which text. -/
structure NotationFault where
  reason : NotationReason
  text : String
  token : String
  index : Nat
  deriving DecidableEq

namespace NotationFault

/-- The wording of a refusal whose reason is given in words. -/
def wording (reason text token : String) (index : Int) : String :=
  s!"{reason} (token {Text.quoted token} at index {index} in {Text.quoted text})"

def message (f : NotationFault) : String :=
  wording f.reason.message f.text f.token f.index

end NotationFault

namespace Change

/-! ## From places -/

/-- A list of numbers in symbols, with `?` for those that have none. -/
def label (places : List Int) : String :=
  String.ofList <| places.map fun p : Int =>
    if 0 ≤ p ∧ p < maxBells then Symbol.ofNat p.toNat else '?'

/-- The change with the given places made. -/
def ofPlaces (s : Stage) (places : List Int) : Except NotationFault (Change s) :=
  match places.find? fun p : Int => p < 0 ∨ s.bells ≤ p with
  | some p => .error ⟨.placeOutOfRange p s, label places, label places, 0⟩
  | none =>
    match ofMade s fun p : Nat => (p : Int) ∈ places with
    | .ok c => .ok c
    | .error p => .error ⟨.unpaired p, label places, label places, 0⟩

/-! ## From text -/

/-- The number of the symbol `X`. -/
def crossPlace : Nat := 33

/-- Whether a symbol is a cross at a stage. -/
def isCrossSymbol (s : Stage) (c : Char) : Bool :=
  c = '-' || ((c = 'x' || c = 'X') && s.bells ≤ crossPlace)

/-- The place a symbol stands for at a stage, or why it stands for none. -/
def placeOf (s : Stage) (c : Char) : Except NotationReason Nat :=
  if isCrossSymbol s c then .error .crossAmongPlaces
  else
    match Symbol.number? c with
    | none => .error (.unknownPlace c)
    | some p => if p < s.bells then .ok p else .error (.symbolOutOfRange c s)

/-- The places of the symbols of a token from `index` on. -/
def placesFrom (s : Stage) (text token : String) :
    (index : Nat) → List Char → Except NotationFault (List Nat)
  | _, [] => .ok []
  | index, c :: cs =>
    match placeOf s c with
    | .error reason => .error ⟨reason, text, token, index⟩
    | .ok p => do return p :: (← placesFrom s text token (index + 1) cs)

/-- The change that a token shows, which stands at `offset` in a text. -/
def ofToken (s : Stage) (text : String) (offset : Nat) (token : List Char) :
    Except NotationFault (Change s) :=
  let shown := String.ofList token
  match token with
  | [] => .error ⟨.noChange, text, shown, offset⟩
  | c :: cs =>
    if cs = [] ∧ isCrossSymbol s c then .ok (cross s)
    else do
      let places ← placesFrom s text shown offset (c :: cs)
      match ofMade s fun p => p ∈ places with
      | .ok change => return change
      | .error p => .error ⟨.unpaired p, text, shown, offset⟩

/-- The change that a text shows. -/
def parse (s : Stage) (text : String) : Except NotationFault (Change s) :=
  ofToken s text 0 text.toList

end Change

end Campanology
