import Campanology.Text.Quoted

/-!
# Bells and their symbols

Bells, and the places they ring in, are numbered from 0: bell 0 is the treble, the lightest. Each of
the first thirty-six numbers has a one-character *symbol*, the digits and then the capital letters;
a small letter is read as its capital. Symbols are for reading and writing only.

* `Symbol.ofNat` and `Symbol.number?` write and read a symbol (`Symbol.number?_eq_some_iff`).
* `Bell` is a number that has a symbol.
-/

namespace Campanology

/-- How many numbers have a symbol. -/
def maxBells : Nat := 36

/-! ## Symbols -/

namespace Symbol

/-- The symbol of a number below `maxBells`. -/
def ofNat (k : Nat) : Char :=
  if k < 10 then Char.ofNat (48 + k) else Char.ofNat (55 + k)

/-- The number a symbol stands for. -/
def number? (c : Char) : Option Nat :=
  let code := c.toNat
  if 48 ≤ code ∧ code ≤ 57 then some (code - 48)
  else if 65 ≤ code ∧ code ≤ 90 then some (code - 55)
  else if 97 ≤ code ∧ code ≤ 122 then some (code - 87)
  else none

theorem number?_lt {c : Char} {k : Nat} (h : number? c = some k) : k < maxBells := by
  simp only [number?] at h
  simp only [maxBells]
  split at h
  · cases h; omega
  split at h
  · cases h; omega
  split at h
  · cases h; omega
  · cases h

theorem number?_ofNat {k : Nat} (h : k < maxBells) : number? (ofNat k) = some k := by
  have all : ∀ k : Fin 36, number? (ofNat k.val) = some k.val := by decide
  exact all ⟨k, h⟩

theorem toNat_ofNat {k : Nat} (h : k < maxBells) :
    (ofNat k).toNat = if k < 10 then 48 + k else 55 + k := by
  have all : ∀ k : Fin 36, (ofNat k).toNat = if k.val < 10 then 48 + k.val else 55 + k.val := by
    decide
  exact all ⟨k, h⟩

theorem toNat_toUpper (c : Char) :
    c.toUpper.toNat = if 97 ≤ c.toNat ∧ c.toNat ≤ 122 then c.toNat - 32 else c.toNat := by
  have small : 'a'.val ≤ c.val ∧ c.val ≤ 'z'.val ↔ 97 ≤ c.toNat ∧ c.toNat ≤ 122 := Iff.rfl
  by_cases h : 'a'.val ≤ c.val ∧ c.val ≤ 'z'.val
  · have capital : c.toUpper = _ := dif_pos h
    rw [capital, if_pos (small.1 h)]
    obtain ⟨low, high⟩ := small.1 h
    change (c.val + ('A'.val - 'a'.val)).toNat = _
    rw [UInt32.toNat_add]
    change (c.toNat + 4294967264) % 4294967296 = _
    omega
  · have same : c.toUpper = c := dif_neg h
    rw [same, if_neg (mt small.2 h)]

/-- The number of a symbol is that of its capital. -/
theorem number?_eq_some_iff {c : Char} {k : Nat} :
    number? c = some k ↔ k < maxBells ∧ c.toUpper = ofNat k := by
  have codes (h : k < maxBells) : c.toUpper = ofNat k ↔
      (if 97 ≤ c.toNat ∧ c.toNat ≤ 122 then c.toNat - 32 else c.toNat) =
        if k < 10 then 48 + k else 55 + k := by
    rw [← Char.toNat_inj, toNat_toUpper, toNat_ofNat h]
  rw [and_congr_right codes]
  have thirtySix : maxBells = 36 := rfl
  grind [number?]

end Symbol

/-- The symbols of a sequence of numbers. -/
def symbols (ks : List Nat) : String :=
  String.ofList (ks.map Symbol.ofNat)

/-! ## Bells -/

/-- A bell, by its number. -/
structure Bell where
  number : Nat
  number_lt : number < maxBells
  deriving DecidableEq

/-- Why there is no such bell. -/
inductive BellFault
  /-- The number has no symbol. -/
  | outOfRange (number : Int)
  /-- The text is not one symbol. -/
  | unknownSymbol (text : String)
  deriving DecidableEq

namespace BellFault

def message : BellFault → String
  | outOfRange number => s!"Bell index must be in [0, {maxBells}): {number}"
  | unknownSymbol text => s!"Unknown bell symbol: {Text.quoted text}"

end BellFault

namespace Bell

/-- The bell with a given number. -/
def ofInt (n : Int) : Except BellFault Bell :=
  if h : 0 ≤ n ∧ n < maxBells then .ok ⟨n.toNat, by simp only [maxBells] at *; omega⟩
  else .error (.outOfRange n)

/-- The bell with a given symbol. -/
def ofSymbol (text : String) : Except BellFault Bell :=
  match text.toList with
  | [c] =>
    match h : Symbol.number? c with
    | some k => .ok ⟨k, Symbol.number?_lt h⟩
    | none => .error (.unknownSymbol text)
  | _ => .error (.unknownSymbol text)

/-- The lightest bell. -/
def treble : Bell := ⟨0, by decide⟩

/-- The symbol of a bell. -/
def symbol (b : Bell) : Char := Symbol.ofNat b.number

/-- A bell as it is shown in a listing. -/
def describe (b : Bell) : String := s!"Bell({b.number})"

end Bell

end Campanology
