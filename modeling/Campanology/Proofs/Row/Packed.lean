import Mathlib.Data.List.GetD
import Mathlib.Data.Int.Cast.Basic
import Mathlib.Data.List.Perm.Subperm
import Campanology.Proofs.Refusals
import Campanology.Proofs.Row.Queries
import Campanology.Row.Parser

/-!
# Rows in bytes

A row can be kept as the mere string of its bells, a byte each. Such strings are multiplied by
looking up bytes in a table, inverted by writing each place at the number of its bell, and so on,
without a look at what they are: nothing in a string says that no bell rings twice, and none of this
arithmetic checks it.

What makes it right is that on the strings of rows it is the arithmetic of rows (`toList_mul`,
`toList_inv`, `toList_pow`), and that the strings of the rows of a stage are those in which each of
its bells rings once (`isRow_iff`). These are also the strings that a check lets pass
(`ofNumbers_map_cast`).
-/

namespace Campanology

/-- The string has as many bytes as the stage has bells, and each bell is one of them. -/
structure Packed.IsRow (s : Stage) (a : List ℕ) : Prop where
  length : a.length = s.bells
  once : ∀ b < s.bells, a.count b = 1

namespace Packed

/-! ## Arithmetic -/

/-- The table of all 256 bytes in which a string is looked up. -/
def table (a : List ℕ) : List ℕ := a ++ List.replicate (256 - a.length) 0

/-- The bytes of `a` at the places that `b` names. -/
def mul (a b : List ℕ) : List ℕ := b.map fun x => (table a).getD x 0

/-- Writes each place of `a` at the number of its bell. -/
def inv (a : List ℕ) : List ℕ :=
  a.zipIdx.foldl (fun places x => places.set x.1 x.2) (List.replicate a.length 0)

/-- Multiplies `result` by the power of `base`, squaring it for each binary digit of `k`. -/
def powFrom (result base : List ℕ) (k : ℕ) : List ℕ :=
  if k = 0 then result
  else powFrom (if k % 2 = 1 then mul result base else result) (mul base base) (k / 2)
termination_by k
decreasing_by omega

/-- A whole power, a negative one being a power of the inverse. -/
def pow (s : Stage) (a : List ℕ) (k : ℤ) : List ℕ :=
  powFrom (List.range s.bells) (if k < 0 then inv a else a) k.natAbs

/-- The products of all heads and rows of a unit, each byte of a row looked up in the head. -/
def copies (heads unit : List (List ℕ)) : List (List ℕ) :=
  heads.flatMap fun h => unit.map fun u => u.map fun x => h.getD x 0

/-- The quotients of the rows of a unit, by the divisor and then by the dividend. -/
def quotients (unit : List (List ℕ)) : List (List ℕ) :=
  unit.flatMap fun a => unit.map fun b => mul b (inv a)

end Packed

namespace Row

open Packed

variable {s : Stage}

/-! ## Rows and their strings -/

theorem nodup_toList (r : Row s) : r.toList.Nodup := by
  refine List.nodup_iff_injective_getElem.2 fun i j h => ?_
  simp only [getElem_toList, ← Fin.ext_iff, bellAt_inj] at h
  exact Fin.ext (Fin.mk.inj h)

theorem mem_toList {r : Row s} {b : ℕ} : b ∈ r.toList ↔ b < s.bells := by
  constructor
  · intro h
    obtain ⟨p, hp, rfl⟩ := List.getElem_of_mem h
    rw [getElem_toList]
    exact Fin.isLt _
  · intro h
    obtain ⟨p, hp⟩ := r.exists_bellAt ⟨b, h⟩
    have place : p.val < r.toList.length := by simp
    have here : r.toList[p.val] = b := by rw [getElem_toList, hp]
    exact here ▸ List.getElem_mem place

theorem isRow_toList (r : Row s) : IsRow s r.toList where
  length := r.length_toList
  once _ h := List.count_eq_one_of_mem r.nodup_toList (mem_toList.2 h)

theorem toList_rounds : (rounds s).toList = List.range s.bells := by
  refine List.ext_getElem (by simp) fun p _ _ => ?_
  rw [getElem_toList, bellAt_rounds, List.getElem_range]

theorem toList_backrounds : (backrounds s).toList = (List.range s.bells).reverse := by
  refine List.ext_getElem (by simp) fun p _ _ => ?_
  rw [getElem_toList, bellAt_backrounds, List.getElem_reverse, List.getElem_range, Fin.val_rev]
  simp only [List.length_range]
  omega

theorem getD_toList (r : Row s) (b : Fin s.bells) : r.toList.getD b 0 = (r.bellAt b).val := by
  rw [List.getD_eq_getElem _ _ (by simp), getElem_toList]

/-! ## Products -/

/-- To look up the bytes of a row in another is to multiply the rows. -/
theorem toList_mul_of_lookup {a b : Row s} {look : ℕ → ℕ}
    (h : ∀ p : Fin s.bells, look p = (a.bellAt p).val) :
    (a * b).toList = b.toList.map look := by
  refine List.ext_getElem (by simp) fun p _ _ => ?_
  rw [getElem_toList, bellAt_mul, List.getElem_map, getElem_toList, h]

theorem toList_mul (a b : Row s) : (a * b).toList = mul a.toList b.toList := by
  refine toList_mul_of_lookup fun p => ?_
  rw [table, List.getD_append _ _ _ _ (by simp), getD_toList]

/-- What is looked up for copies of a unit are the products. -/
theorem map_toList_copies (heads unit : List (Row s)) :
    (heads.flatMap fun h => unit.map (h * ·)).map toList =
      copies (heads.map toList) (unit.map toList) := by
  simp only [copies, List.map_flatMap, List.flatMap_map, List.map_map]
  refine List.flatMap_congr fun h _ => List.map_congr_left fun u _ => ?_
  exact toList_mul_of_lookup h.getD_toList

/-! ## Inverses -/

/-- A byte stays as it is if nothing is written at its index. -/
theorem getElem?_foldl_set_of_not_mem {writes : List (ℕ × ℕ)} {i : ℕ} (bytes : List ℕ)
    (h : ∀ x ∈ writes, x.1 ≠ i) :
    (writes.foldl (fun bytes x => bytes.set x.1 x.2) bytes)[i]? = bytes[i]? := by
  induction writes generalizing bytes with
  | nil => rfl
  | cons x writes ih =>
    rw [List.forall_mem_cons] at h
    rw [List.foldl_cons, ih _ h.2, List.getElem?_set_ne h.1]

/-- A byte is what was written last at its index. -/
theorem getElem?_foldl_set_of_mem {writes : List (ℕ × ℕ)} {bytes : List ℕ} {i v : ℕ}
    (apart : (writes.map Prod.fst).Nodup) (h : (i, v) ∈ writes) (lt : i < bytes.length) :
    (writes.foldl (fun bytes x => bytes.set x.1 x.2) bytes)[i]? = some v := by
  induction writes generalizing bytes with
  | nil => cases h
  | cons x writes ih =>
    rw [List.map_cons, List.nodup_cons] at apart
    rw [List.foldl_cons]
    rcases List.mem_cons.1 h with rfl | h
    · rw [getElem?_foldl_set_of_not_mem, List.getElem?_set_self lt]
      rintro y hy rfl
      exact apart.1 (List.mem_map.2 ⟨y, hy, rfl⟩)
    · exact ih apart.2 h (by simpa using lt)

theorem length_foldl_set (writes : List (ℕ × ℕ)) (bytes : List ℕ) :
    (writes.foldl (fun bytes x => bytes.set x.1 x.2) bytes).length = bytes.length := by
  induction writes generalizing bytes with
  | nil => rfl
  | cons x writes ih => rw [List.foldl_cons, ih, List.length_set]

theorem toList_inv (a : Row s) : a⁻¹.toList = inv a.toList := by
  have apart : (a.toList.zipIdx.map Prod.fst).Nodup := by
    rw [List.zipIdx_map_fst]
    exact a.nodup_toList
  refine List.ext_getElem (by simp [inv, length_foldl_set]) fun b hb _ => ?_
  have lt : b < s.bells := by simpa using hb
  have written : (b, (a.placeOf ⟨b, lt⟩).val) ∈ a.toList.zipIdx := by
    rw [List.mk_mem_zipIdx_iff_getElem?, List.getElem?_eq_some_iff]
    exact ⟨by simp, by rw [getElem_toList, bellAt_placeOf]⟩
  have room : b < (List.replicate a.toList.length 0).length := by simpa using lt
  have last := getElem?_foldl_set_of_mem apart written room
  rw [getElem_toList, bellAt_inv]
  exact (List.getElem_of_getElem? last).2.symm

theorem toList_leftQuotient (a b : Row s) :
    (a.leftQuotient b).toList = mul (inv a.toList) b.toList := by
  rw [leftQuotient, toList_mul, toList_inv]

theorem map_toList_quotients (unit : List (Row s)) :
    (unit.flatMap fun a => unit.map (· * a⁻¹)).map toList = quotients (unit.map toList) := by
  simp only [quotients, List.map_flatMap, List.flatMap_map, List.map_map]
  refine List.flatMap_congr fun a _ => List.map_congr_left fun b _ => ?_
  simp only [Function.comp_apply, toList_mul, toList_inv]

/-! ## Powers -/

/-- Each round of squaring takes one binary digit off the exponent. -/
theorem toList_mul_pow (r base : Row s) (k : ℕ) :
    (r * base ^ k).toList = powFrom r.toList base.toList k := by
  induction k using Nat.strong_induction_on generalizing r base with
  | _ k ih =>
    rw [powFrom]
    by_cases none : k = 0
    · simp [none]
    rw [if_neg none, ← toList_mul, ← toList_mul, ← apply_ite toList, ← ih _ (by omega), ← pow_two,
      ← pow_mul]
    congr 1
    split
    · rw [mul_assoc, ← pow_succ']
      congr 2
      omega
    · congr 2
      omega

theorem toList_pow (r : Row s) (k : ℤ) : (r.pow k).toList = Packed.pow s r.toList k := by
  rw [pow_eq_zpow, Packed.pow, ← toList_rounds, ← toList_inv, ← apply_ite toList, ← toList_mul_pow,
    rounds_eq_one, one_mul]
  congr 1
  split
  · rw [← zpow_natCast, inv_zpow']
    exact congrArg (r ^ ·) (by omega)
  · rw [← zpow_natCast]
    exact congrArg (r ^ ·) (by omega)

/-! ## Checked strings -/

theorem offence_eq_none_iff {bs before rest : List ℤ} :
    offence s bs before rest = none ↔
      (∀ b ∈ rest, 0 ≤ b ∧ b < s.bells) ∧ rest.Nodup ∧ ∀ b ∈ rest, b ∉ before := by
  refine ⟨fun h => ⟨bounds_of_offence h, nodup_of_offence h⟩, ?_⟩
  rintro ⟨bounds, nodup, apart⟩
  induction rest generalizing before with
  | nil => rfl
  | cons b rest ih =>
    rw [List.forall_mem_cons] at bounds apart
    rw [List.nodup_cons] at nodup
    rw [offence, if_neg (by omega), if_neg apart.1]
    refine ih bounds.2 nodup.2 fun c hc => ?_
    rw [List.mem_append, List.mem_singleton, not_or]
    exact ⟨apart.2 c hc, fun same => nodup.1 (same ▸ hc)⟩

/-- The bells of a row pass the check. -/
theorem offence_map_cast (r : Row s) (bs : List ℤ) :
    offence s bs [] (r.toList.map Nat.cast) = none := by
  refine offence_eq_none_iff.2 ⟨fun b hb => ?_, ?_, by simp⟩
  · obtain ⟨c, hc, rfl⟩ := List.mem_map.1 hb
    have := mem_toList.1 hc
    omega
  · exact r.nodup_toList.map fun _ _ => Int.natCast_inj.1

/-- A check lets the strings of rows pass, and no others. -/
theorem ofNumbers_eq_ok_iff {bs : List ℤ} {r : Row s} :
    ofNumbers s bs = .ok r ↔ bs = r.toList.map Nat.cast := by
  constructor
  · intro h
    rw [ofNumbers] at h
    split at h
    · rename_i len
      split at h
      · cases h
      · rename_i fine
        obtain rfl := Except.ok.inj h
        refine List.ext_getElem (by simp [len]) fun p hp _ => ?_
        have bounds := bounds_of_offence fine _ (List.getElem_mem hp)
        rw [List.getElem_map, getElem_toList, bellAt_ofFn]
        exact (Int.toNat_of_nonneg bounds.1).symm
    · cases h
  · rintro rfl
    rw [ofNumbers, dif_pos (by simp)]
    split
    · rename_i fault h
      rw [offence_map_cast] at h
      cases h
    · refine congrArg Except.ok (ext fun p => Fin.ext ?_)
      rw [bellAt_ofFn]
      simp [getElem_toList]

theorem ofNumbers_map_cast {a : List ℕ} {r : Row s} :
    ofNumbers s (a.map Nat.cast) = .ok r ↔ r.toList = a := by
  rw [ofNumbers_eq_ok_iff, (List.map_injective_iff.2 fun _ _ => Int.natCast_inj.1).eq_iff, eq_comm]

/-- As many bytes as the stage has bells, if each bell is one of them, are its bells in some
order. -/
theorem perm_range_of_subset {a : List ℕ} (length : a.length = s.bells)
    (within : List.range s.bells ⊆ a) : (List.range s.bells).Perm a :=
  (List.subperm_of_subset List.nodup_range within).perm_of_length_le (by simp [length])

/-- **The strings of the rows of a stage are those in which each of its bells rings once.** -/
theorem isRow_iff {a : List ℕ} : IsRow s a ↔ ∃ r : Row s, r.toList = a := by
  constructor
  · rintro ⟨length, once⟩
    have within : List.range s.bells ⊆ a := fun b hb =>
      List.count_pos_iff.1 (by rw [once b (List.mem_range.1 hb)]; exact one_pos)
    have perm := perm_range_of_subset length within
    have bells : ∀ b ∈ a, b < s.bells := fun b hb => List.mem_range.1 (perm.mem_iff.2 hb)
    have nodup : a.Nodup := perm.nodup_iff.1 List.nodup_range
    refine ⟨ofFn (fun p => ⟨a[p], bells _ (List.getElem_mem _)⟩) fun p q h => ?_, ?_⟩
    · exact Fin.ext (nodup.getElem_inj_iff.1 (Fin.mk.inj h))
    · refine List.ext_getElem (by simp [length]) fun p _ _ => ?_
      rw [getElem_toList, bellAt_ofFn]
      rfl
  · rintro ⟨r, rfl⟩
    exact r.isRow_toList

theorem toList_of_ofNumbers {bs : List ℤ} {r : Row s} (h : ofNumbers s bs = .ok r) :
    r.toList = bs.map Int.toNat := by
  rw [ofNumbers_eq_ok_iff.1 h, List.map_map]
  exact (List.map_id _).symm

theorem eq_map_cast_of_numbers {place : ℕ} {cs : List Char} {bs : List ℤ}
    (h : numbers place cs = .ok bs) : bs = (cs.filterMap Symbol.number?).map Nat.cast := by
  induction cs generalizing place bs with
  | nil => exact (Except.ok.inj h).symm
  | cons c cs ih =>
    rw [numbers] at h
    cases known : Symbol.number? c with
    | none => simp [known] at h
    | some b =>
      simp only [known] at h
      obtain ⟨rest, read, h⟩ := bind_eq_ok_iff.1 h
      rw [← Except.ok.inj h, ih read, List.filterMap_cons_some known, List.map_cons]

theorem toList_of_parse {text : String} {r : Row s} (h : parse s text = .ok r) :
    r.toList = text.toList.filterMap Symbol.number? := by
  rw [parse] at h
  split at h
  · obtain ⟨bs, read, h⟩ := bind_eq_ok_iff.1 h
    rw [eq_map_cast_of_numbers read] at h
    exact ofNumbers_map_cast.1 h
  · cases h

/-! ## Rows of the stage that has so many bells -/

theorem ofNumbers_of_ofNumbersAny {bs : List ℤ} {r : Row s} (h : ofNumbersAny bs = .ok (.of r)) :
    ofNumbers s bs = .ok r := by
  obtain ⟨s', -, h⟩ := bind_eq_ok_iff.1 h
  obtain ⟨r', read, h⟩ := bind_eq_ok_iff.1 h
  cases h
  exact read

theorem parse_of_parseAny {text : String} {r : Row s} (h : parseAny text = .ok (.of r)) :
    parse s text = .ok r := by
  obtain ⟨s', -, h⟩ := bind_eq_ok_iff.1 h
  obtain ⟨r', read, h⟩ := bind_eq_ok_iff.1 h
  cases h
  exact read

end Row

end Campanology
