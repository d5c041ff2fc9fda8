/-!
# Decimals with a fixed number of places

A binary64 number is `m * 2 ^ q` for whole numbers `m` and `q`, which its bits tell. It is written
with a fixed number of decimal places by rounding this exact value, a half going to the even
neighbour; the sign of a number which is rounded to zero is kept.

* `roundDiv` is the rounding of a quotient of whole numbers.
* `fixed` writes a number.
* `ofInt?` is the binary64 number nearest to a whole number, unless that is beyond all of them.
-/

namespace Campanology.Text

/-- A power of two. -/
def twoPow (k : Nat) : Nat := Nat.pow 2 k

/-- The whole number nearest to `num / den`, the even one if two are. -/
def roundDiv (num den : Nat) : Nat :=
  let q := num / den
  let r := num % den
  if 2 * r < den then q
  else if den < 2 * r then q + 1
  else if q % 2 = 0 then q else q + 1

/-- The digits of a whole number, at least `width` of them. -/
def digits (width n : Nat) : List Char :=
  let ds := (toString n).toList
  List.replicate (width - ds.length) '0' ++ ds

/-- A whole number of units of `10 ^ -places` in decimals. -/
def decimals (places n : Nat) : List Char :=
  let ds := digits (places + 1) n
  if places = 0 then ds
  else ds.take (ds.length - places) ++ '.' :: ds.drop (ds.length - places)

/-- A number written with a fixed number of places. -/
def fixed (places : Nat) (x : Float) : String :=
  let bits := x.toBits.toNat
  let sign := if bits / twoPow 63 = 1 then "-" else ""
  let exponent := bits / twoPow 52 % twoPow 11
  let fraction := bits % twoPow 52
  if exponent = 2047 then
    if fraction = 0 then sign ++ "inf" else "nan"
  else
    -- the value is `m * 2 ^ (e - 1075)`
    let m := if exponent = 0 then fraction else fraction + twoPow 52
    let e := max exponent 1
    let units := roundDiv (m * Nat.pow 10 places * twoPow e) (twoPow 1075)
    sign ++ String.ofList (decimals places units)

/-- The least whole number which is rounded to none of the finite binary64 numbers. -/
def floatLimit : Nat := twoPow 1024 - twoPow 970

/-- The binary64 number nearest to a whole number which is not negative. -/
def ofNat? (n : Nat) : Option Float :=
  if n < floatLimit then some (Float.ofScientific n false 0) else none

/-- The binary64 number nearest to a whole number. -/
def ofInt? (n : Int) : Option Float :=
  if n < 0 then (ofNat? n.natAbs).map fun x => -x else ofNat? n.natAbs

/-- A text filled up with blanks on the right. -/
def padRight (width : Nat) (s : String) : String :=
  s ++ String.ofList (List.replicate (width - s.length) ' ')

end Campanology.Text
