import Campanology.Proofs.Truth.Sheets

/-!
# The proofs listed as slowest

A time sheet ranks its proofs by their times, and times that are no numbers can be compared in any
way. Whatever the comparisons say, the ranking is a rearrangement of the proofs
(`TimeSheet.perm_ranked`). So the proofs listed as slowest are as many as are asked for, if there
are so many, and with those that are left out they make up all (`TimeSheet.slowest_lists`). With
three of them the summary ends (`TimeSheet.summary_lists`).

After a history of proofs they are different ones, and each of them began
(`Prover.slowest_of_history`).
-/

namespace Campanology

namespace TimeSheet

theorem perm_ranked (t : TimeSheet) : t.ranked.Perm t.proofs.entries := Ranking.perm_rank _ _

theorem length_ranked (t : TimeSheet) : t.ranked.length = t.proofs.size := t.perm_ranked.length_eq

/-- **The proofs listed as slowest are proofs of the sheet**, with those that are left out making up
all. There are as many as are asked for, or as many as there are; a negative number leaves out that
many. -/
theorem slowest_lists (t : TimeSheet) (n : ℤ) :
    ∃ rest, (t.slowest n ++ rest).Perm t.proofs.entries ∧
      (0 ≤ n → (t.slowest n).length = min n.toNat t.proofs.size) ∧
      (n < 0 → (t.slowest n).length = t.proofs.size - n.natAbs) := by
  refine ⟨t.ranked.drop (if n < 0 then n + t.ranked.length else n).toNat, ?_, fun low => ?_,
    fun low => ?_⟩
  · rw [slowest, List.take_append_drop]
    exact t.perm_ranked
  · rw [slowest, if_neg (Int.not_lt.2 low), List.length_take, length_ranked]
  · rw [slowest, if_pos low, List.length_take, length_ranked]
    omega

/-- The summary ends with a line for each of three proofs of the sheet, or for all if there are
fewer. -/
theorem summary_lists {t : TimeSheet} {text : String} (told : t.summary = some text) :
    ∃ (before : List String) (listed rest : List (String × ProofEntry)),
      text = "\n".intercalate (before ++ listed.map proofLine ++ [""]) ∧
      (listed ++ rest).Perm t.proofs.entries ∧ listed.length = min 3 t.proofs.size := by
  obtain ⟨rest, perm, length, -⟩ := t.slowest_lists 3
  have length := length (by decide)
  have ends : ∃ lines, text = "\n".intercalate (lines ++ [""]) ∧
      (t.slowest 3).map proofLine <:+ lines := by
    unfold summary at told
    split at told
    · rename_i none
      obtain rfl := Option.some.inj told
      have empty : t.slowest 3 = [] := List.eq_nil_of_length_eq_zero (by rw [length, none]; rfl)
      exact ⟨_, rfl, empty ▸ List.nil_suffix⟩
    · obtain ⟨rate, -, told⟩ := Option.bind_eq_some_iff.1 told
      obtain rfl := Option.some.inj told
      refine ⟨_, rfl, ?_⟩
      exact ((List.suffix_append _ _).trans (List.suffix_append _ _)).trans (List.suffix_append _ _)
  obtain ⟨_, rfl, before, rfl⟩ := ends
  exact ⟨before, t.slowest 3, rest, rfl, perm, length⟩

end TimeSheet

namespace Prover

/-- **The proofs listed as slowest after a history are different ones**, and each has the name of a
request by which a proof began. -/
theorem slowest_of_history (d : Prover) (history : List Request) (n : ℤ) :
    ∃ t, (d.after history (.start (some .empty))).sheet = some t ∧
      ((t.slowest n).map Prod.fst).Nodup ∧
      ∀ id ∈ (t.slowest n).map Prod.fst,
        ∃ c ∈ d.calls 0 history (.start (some .empty)), d.begins c.request ∧ d.nameOf c = id := by
  obtain ⟨t, sheet, entered⟩ := d.exists_sheet history
  obtain ⟨rest, perm, -⟩ := t.slowest_lists n
  have names : ((t.slowest n).map Prod.fst ++ rest.map Prod.fst).Perm t.proofs.keys := by
    rw [← List.map_append]
    exact perm.map _
  have different : t.proofs.keys.Nodup := by
    rw [entered]
    exact Register.nodup_keys_foldl_alter _ _ _ List.nodup_nil
  refine ⟨t, sheet, (names.nodup_iff.2 different).of_append_left, fun id listed => ?_⟩
  have kept := names.subset (List.mem_append_left _ listed)
  rw [entered, Register.mem_keys_foldl_alter] at kept
  obtain ⟨c, begun, rfl⟩ := List.mem_map.1 (kept.resolve_left List.not_mem_nil)
  obtain ⟨mem, begins⟩ := List.mem_filter.1 begun
  exact ⟨c, mem, begins, rfl⟩

end Prover

end Campanology
