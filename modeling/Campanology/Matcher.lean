import Campanology.Text.EditDistance

/-!
# Matchers

The titles near to a text are found by a matcher, which is no part of the library: a measure of how
far two texts are apart, and a search that goes through a list of texts and tells those which the
measure puts nearest to another. The library only asks it; what it relies on is said where something
is concluded from it.

* `Match` is one text found, `Matcher.search` finds them or refuses in words of its own.
* `Matcher.byEdits` is a matcher: it counts edits, measures every text and sorts.
-/

namespace Campanology

/-- One of the texts gone through, with its distance from the text looked for. -/
structure Match where
  choice : String
  distance : Nat
  /-- Where the text stands among those gone through. -/
  place : Nat
  deriving DecidableEq

/-- A refusal of a matcher. -/
structure MatcherFault where
  message : String
  deriving DecidableEq

/-- A measure of two texts, and a search by measures. -/
structure Matcher where
  distance : String → String → Nat
  /-- The texts nearest to one by a measure, the nearest first, as many as a limit allows. -/
  search : (measure : String → String → Nat) → (text : String) → (choices : List String) →
    (limit : Int) → Except MatcherFault (List Match)

/-- The matcher which counts edits. It measures every text, and sorts them so that texts of equal
distance stay in their order. -/
def Matcher.byEdits : Matcher where
  distance := Text.distance
  search measure text choices limit :=
    let measured := choices.zipIdx.map fun c => (⟨c.1, measure text c.1, c.2⟩ : Match)
    .ok ((measured.mergeSort fun a b => a.distance ≤ b.distance).take limit.toNat)

end Campanology
