/-!
# Seconds

A time is a binary64 number of seconds. It may be infinite, or be *no number*, with a sign all the
same. Sums keep the first of their terms which is no number; the two infinities together make no
number with the negative sign. That sign is seen in the bits alone.
-/

namespace Campanology

/-- A number of seconds, by its bits. -/
structure Seconds where
  bits : UInt64
  deriving DecidableEq

namespace Seconds

/-- The seconds of a number; what is no number has the positive sign. -/
def ofFloat (x : Float) : Seconds := ⟨x.toBits⟩

def value (t : Seconds) : Float := Float.ofBits t.bits

/-- No time at all. -/
def zero : Seconds := ⟨0⟩

/-- What the two infinities make. -/
def noNumber : Seconds := ⟨0xfff8000000000000⟩

/-- Two times together. -/
def add (t u : Seconds) : Seconds :=
  if t.value.isNaN then t
  else if u.value.isNaN then u
  else
    let both := t.value + u.value
    if both.isNaN then noNumber else ofFloat both

instance : Add Seconds := ⟨add⟩

/-- Times together, from left to right, beginning with zero. -/
def sum (ts : List Seconds) : Seconds := ts.foldl (· + ·) zero

end Seconds

end Campanology
