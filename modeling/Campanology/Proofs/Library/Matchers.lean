import Campanology.Matcher
import Campanology.Proofs.Text.EditDistance

/-!
# What is relied on in a matcher

A matcher is no part of the library, and may find and refuse in any way. To be relied on at a limit
(`Matcher.Lawful`) it has to measure two texts by the fewest edits that make one of the other, and
to find so many of the first in a ranking of all texts: by this measure, and those of the same
measure as they are listed (`Ranks`). The ranking goes by places and not by texts, since a text may
be listed more than once.

The matcher that counts edits and sorts can be relied on at every limit (`Matcher.lawful_byEdits`):
sorting keeps texts of the same measure in their order (`pairwise_before_mergeSort`).
-/

namespace Campanology

/-- So many edits make one text of another, and no fewer do. -/
def Text.FewestEdits (a b : String) (n : ℕ) : Prop := IsLeast {n | Edits n a.toList b.toList} n

/-- One text found comes before another: it is nearer, or as near and listed first. -/
def Match.Before (a b : Match) : Prop :=
  a.distance < b.distance ∨ a.distance = b.distance ∧ a.place < b.place

/-- A ranking of listed texts by their distance from a text: each place stands in it once, with what
is listed there. -/
structure Ranks (distance : String → String → ℕ) (text : String) (choices : List String)
    (ranking : List Match) : Prop where
  places : (ranking.map Match.place).Perm (List.range choices.length)
  read : ∀ t ∈ ranking, choices[t.place]? = some t.choice ∧ t.distance = distance text t.choice
  sorted : ranking.Pairwise Match.Before

/-- The measure counts the fewest edits, and the search finds the first of the ranking by it, as
many as the limit allows. -/
structure Matcher.Lawful (m : Matcher) (limit : ℤ) : Prop where
  fewest : ∀ a b, Text.FewestEdits a b (m.distance a b)
  finds : ∀ text choices, ∃ ranking, Ranks m.distance text choices ranking ∧
    m.search m.distance text choices limit = .ok (ranking.take limit.toNat)

/-! ## Counting and sorting -/

/-- Of two things at different places one comes first for its number, or else for its place. -/
theorem lt_or_eq_and_lt_of_zipIdxLE {α : Type} {key : α → ℕ} {p q : α × ℕ}
    (h : List.zipIdxLE (fun x y => key x ≤ key y) p q) (ne : p.2 ≠ q.2) :
    key p.1 < key q.1 ∨ key p.1 = key q.1 ∧ p.2 < q.2 := by
  simp only [List.zipIdxLE, decide_eq_true_eq] at h
  split at h
  · split at h
    · have order : p.2 ≤ q.2 := of_decide_eq_true h
      omega
    · omega
  · cases h

/-- What is listed by place is sorted by distance, and else by place. -/
theorem pairwise_before_mergeSort {ts : List Match}
    (listed : ts.Pairwise fun a b => a.place < b.place) :
    (ts.mergeSort fun a b => a.distance ≤ b.distance).Pairwise Match.Before := by
  let le : Match → Match → Bool := fun a b => a.distance ≤ b.distance
  let placed := ts.zipIdx.mergeSort (List.zipIdxLE le)
  have total : ∀ a b, le a b || le b a := by
    intro a b
    simpa [le] using Nat.le_total a.distance b.distance
  have trans : ∀ a b c, le a b → le b c → le a c := by
    intro a b c ab bc
    simp only [le, decide_eq_true_eq] at ab bc ⊢
    exact Nat.le_trans ab bc
  have sorted : placed.Pairwise fun p q => List.zipIdxLE le p q :=
    List.pairwise_mergeSort (List.zipIdxLE_trans trans) (List.zipIdxLE_total total) _
  have apart : placed.Pairwise fun p q => p.2 ≠ q.2 := by
    have perm := (List.mergeSort_perm ts.zipIdx (List.zipIdxLE le)).map Prod.snd
    rw [List.zipIdx_map_snd] at perm
    exact List.pairwise_map.1 (perm.nodup_iff.2 List.nodup_range')
  rw [← List.mergeSort_zipIdx, List.pairwise_map]
  refine (sorted.and apart).imp_of_mem fun {p q} hp hq h => ?_
  have hp : ts[p.2]? = some p.1 := List.mem_zipIdx_iff_getElem?.1 (List.mem_mergeSort.1 hp)
  have hq : ts[q.2]? = some q.1 := List.mem_zipIdx_iff_getElem?.1 (List.mem_mergeSort.1 hq)
  obtain nearer | ⟨same, first⟩ := lt_or_eq_and_lt_of_zipIdxLE h.1 h.2
  · exact .inl nearer
  · obtain ⟨lp, ep⟩ := List.getElem?_eq_some_iff.1 hp
    obtain ⟨lq, eq⟩ := List.getElem?_eq_some_iff.1 hq
    exact .inr ⟨same, ep ▸ eq ▸ List.pairwise_iff_getElem.1 listed _ _ lp lq first⟩

/-- **The matcher that counts edits and sorts can be relied on** at every limit. -/
theorem Matcher.lawful_byEdits (limit : ℤ) : Matcher.byEdits.Lawful limit where
  fewest a b := Text.isLeast_editDistance a.toList b.toList
  finds text choices := by
    let measured : List Match :=
      choices.zipIdx.map fun c => ⟨c.1, Text.distance text c.1, c.2⟩
    have places : measured.map Match.place = List.range choices.length := by
      rw [List.map_map, List.range_eq_range', ← List.zipIdx_map_snd]
      rfl
    refine ⟨measured.mergeSort fun a b => a.distance ≤ b.distance, ⟨?_, ?_, ?_⟩, rfl⟩
    · exact ((List.mergeSort_perm _ _).map _).trans (.of_eq places)
    · intro t mem
      obtain ⟨c, hc, rfl⟩ := List.mem_map.1 (List.mem_mergeSort.1 mem)
      exact ⟨List.mem_zipIdx_iff_getElem?.1 hc, rfl⟩
    · have ascending := places ▸ List.pairwise_lt_range
      exact pairwise_before_mergeSort (List.pairwise_map.1 ascending)

end Campanology
