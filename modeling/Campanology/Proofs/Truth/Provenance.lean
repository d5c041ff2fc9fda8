import Campanology.Proofs.Change.Runs
import Campanology.Proofs.Change.Token
import Campanology.Proofs.Ringing.Strings
import Campanology.Proofs.Truth.Copies
import Campanology.Proofs.Truth.Quotients

/-!
# Where rows come from

Rows are read, rung, multiplied and found in tables, and from one of these operations to the next
they are handed on as strings of bytes, which are never looked at again: a product of two strings is
trusted to be a row because both factors are. `Computed` follows all the operations by which rows
are obtained, and has with the rows the strings that are computed for them, by lookup, by writes at
the numbers of bells, by pairing places from the lead up, and by multiplying all heads with all rows
of a unit at once.

Whatever is composed of them, the strings are those of the rows (`Computed.bytes_eq`), and so have
every bell of the stage once. To check them, as it is done for repeated rows and for false heads, is
to find nothing wrong (`computed_strings_are_rows`).
-/

namespace Campanology

variable {s : Stage}

/-! ## Strings of changes and of table entries -/

namespace Packed

/-- The string of swaps that comes of pairing places; it is empty if they do not pair. -/
def change (n : ℕ) (fixed : List ℕ) : List ℕ :=
  match Change.pairUp n fixed with
  | .ok (_, swaps) => swaps
  | .error _ => []

/-- The places of a written change; a cross has none. -/
def writtenPlaces (s : Stage) (token : List Char) : List ℕ :=
  if token.any (Change.isCrossSymbol s) then [] else token.filterMap Symbol.number?

/-- The string under which a quotient is entered in the table of a unit. -/
def entry (t : QuotientTable s) (unit : List (List ℕ)) (q : Row s) : List ℕ :=
  match t.witnesses[q]? with
  | some (a, b) => mul (unit.getD b []) (inv (unit.getD a []))
  | none => []

end Packed

/-! ## Operations -/

/-- The rows are obtained by operations of the library, and the strings are computed for them. -/
inductive Computed (s : Stage) : List (Row s) → List (List ℕ) → Prop
  /-- No rows. -/
  | nil : Computed s [] []
  /-- Rows and other rows. -/
  | append {rs qs xs ys} : Computed s rs xs → Computed s qs ys → Computed s (rs ++ qs) (xs ++ ys)
  /-- Some of the rows, by their indices: one of them, a slice, the heads of leads. -/
  | some {rs xs} (indices : List ℕ) : Computed s rs xs →
      Computed s (indices.filterMap (rs[·]?)) (indices.filterMap (xs[·]?))
  | parse {text r} : Row.parse s text = .ok r →
      Computed s [r] [text.toList.filterMap Symbol.number?]
  | parseAny {text r} : Row.parseAny text = .ok (.of r) →
      Computed s [r] [text.toList.filterMap Symbol.number?]
  | ofNumbers {bs r} : Row.ofNumbers s bs = .ok r → Computed s [r] [bs.map Int.toNat]
  | ofNumbersAny {bs r} : Row.ofNumbersAny bs = .ok (.of r) → Computed s [r] [bs.map Int.toNat]
  | rounds : Computed s [Row.rounds s] [List.range s.bells]
  | backrounds : Computed s [Row.backrounds s] [(List.range s.bells).reverse]
  | multiply {a b c : Row s} {x y} : Computed s [a] [x] → Computed s [b] [y] →
      Row.multiply (.of a) (.of b) = .ok (.of c) → Computed s [c] [Packed.mul x y]
  | inverse {a x} : Computed s [a] [x] → Computed s [a⁻¹] [Packed.inv x]
  | pow {a x} (k : ℤ) : Computed s [a] [x] → Computed s [a.pow k] [Packed.pow s x k]
  | transposition {a b c : Row s} {x y} : Computed s [a] [x] → Computed s [b] [y] →
      Row.transposition (.of a) (.of b) = .ok (.of c) →
      Computed s [c] [Packed.mul (Packed.inv x) y]
  /-- The row of a change told by its places. -/
  | ofPlaces {given c} : Change.ofPlaces s given = .ok c →
      Computed s [c.row] [Packed.change s.bells (given.map Int.toNat)]
  | cross : Computed s [(Change.cross s).row] [Packed.change s.bells []]
  /-- The row of a written change. -/
  | parseChange {text c} : Change.parse s text = .ok c →
      Computed s [c.row] [Packed.change s.bells (Packed.writtenPlaces s text.toList)]
  /-- The rows of the changes of a written lead, each told by its places. -/
  | parseLead {text cs} : Change.parseLead s text = .ok cs →
      Computed s (cs.map Change.row) (cs.map fun c => Packed.change s.bells c.places)
  | apply {c : Change s} {r q : Row s} {x y} : Computed s [c.row] [x] → Computed s [r] [y] →
      Change.apply (.of c) (.of r) = .ok (.of q) → Computed s [q] [Packed.mul y x]
  | start {seed x} : Computed s [seed] [x] → Computed s (Touch.start seed).allRows [x]
  | extend {t t' : Touch s} {c : Change s} {xs y} : Computed s t.allRows xs →
      Computed s [c.row] [y] → t.extend (.of c) = .ok t' →
      Computed s t'.allRows (Packed.ring xs y)
  /-- The rows of a touch after changes of any stages, up to one that is refused. -/
  | extendAll {t : Touch s} {cs : List (Staged Change)} {made : List (Change s)} {xs ys} :
      Computed s t.allRows xs → Computed s (made.map Change.row) ys → made.map .of <+: cs →
      (t.extendAll cs).2.rows.size = t.rows.size + made.length →
      Computed s (t.extendAll cs).2.allRows (ys.foldl Packed.ring xs)
  | markLead {t t' : Touch s} {xs} : Computed s t.allRows xs → t.markLead = .ok t' →
      Computed s t'.allRows xs
  | stand {t t' : Touch s} {b : Block s} {xs} : Computed s t.allRows xs → t.stand = .ok (b, t') →
      Computed s b.allRows xs
  /-- The rows of a block rung from a seed by repeating a lead. -/
  | ring {seed : Row s} {lead : List (Change s)} {settings : Option Settings} {b : Block s} {x ys} :
      Computed s [seed] [x] → Computed s (lead.map Change.row) ys →
      Campanology.ring (.of seed) (lead.map .of) settings = .ok (.of b) →
      Computed s b.allRows ((Packed.cycled ys b.rows.length).foldl Packed.ring [x])
  | ofRows {rs : List (Row s)} {leftover : Row s} {ends : List ℤ} {b : Block s} {xs y} :
      Computed s rs xs → Computed s [leftover] [y] →
      Block.ofRows s (rs.map .of) (.of leftover) ends = .ok b → Computed s b.allRows (xs ++ [y])
  | begunFromAny {head : Row s} {b b' : Block s} {x ys} : Computed s [head] [x] →
      Computed s b.allRows ys → b.begunFromAny (.of head) = .ok b' →
      Computed s b'.allRows (ys.map (Packed.mul x))
  /-- The repeated rows of a block. -/
  | prove {b : Block s} {xs} (stop : Bool) : Computed s b.rows xs →
      Computed s ((b.prove stop).clashes.map Clash.row)
        ((b.prove stop).clashes.map fun c => xs.getD c.second.offset [])
  /-- The repeated rows of the copies of a unit. -/
  | proveHeads {unit : Block s} {heads : List (Row s)} {stop : Bool} {report : Report (Row s)}
      {us hs} : Computed s unit.rows us → Computed s heads hs →
      unit.proveHeads (heads.map .of) stop = .ok report →
      Computed s (report.clashes.map Clash.row)
        (report.clashes.map fun c => (Packed.copies hs us).getD c.second.offset [])
  /-- The false heads in the table of a unit. -/
  | falseHeads {unit : Block s} {us} : Computed s unit.rows us →
      Computed s (QuotientTable.ofBlock unit).falseHeads
        ((QuotientTable.ofBlock unit).falseHeads.map
          (Packed.entry (QuotientTable.ofBlock unit) us))
  /-- The rows which copies of a unit share, found by its table. -/
  | tableHeads {unit : Block s} {heads : List (Row s)} {stop : Bool} {report : Report (Row s)}
      {us hs} : Computed s unit.rows us → Computed s heads hs →
      (QuotientTable.ofBlock unit).proveHeads (heads.map .of) stop = .ok report →
      Computed s (report.clashes.map Clash.row)
        (report.clashes.map fun c =>
          Packed.mul (hs.getD c.first.lead []) (us.getD c.first.index []))

/-! ## Strings of changes -/

namespace Change

theorem string_of_ofMade {made : ℕ → Bool} {fixed : List ℕ}
    (told : ∀ q, made q = true ↔ q ∈ fixed) {c : Change s} (h : ofMade s made = .ok c) :
    c.row.toList = Packed.change s.bells fixed := by
  rw [Packed.change, pairUp_of_ofMade told h]

theorem string_of_ofPlaces {given : List ℤ} {c : Change s} (h : ofPlaces s given = .ok c) :
    c.row.toList = Packed.change s.bells (given.map Int.toNat) := by
  have inside := inside_of_ofPlaces h
  exact string_of_ofMade (told_iff inside) ((ofPlaces_eq_ok_iff inside).1 h)

theorem string_cross : (cross s).row.toList = Packed.change s.bells [] :=
  string_of_ofMade (by simp) ofMade_none

theorem string_of_places (c : Change s) : c.row.toList = Packed.change s.bells c.places :=
  string_of_ofMade (by simp) c.ofMade_places

/-- The places of a token without crosses are the numbers of its symbols. -/
theorem writtenPlaces_of_placeOf {token : List Char} {places : List ℕ}
    (h : List.Forall₂ (fun x p => placeOf s x = .ok p) token places) :
    Packed.writtenPlaces s token = places := by
  have crosses : token.any (isCrossSymbol s) = false := by
    induction h with
    | nil => rfl
    | cons hp _ ih =>
      rw [List.any_cons, ih, Bool.or_false]
      exact Bool.eq_false_iff.2 fun isCross => placeOf_cross isCross _ hp
  rw [Packed.writtenPlaces, crosses, if_neg Bool.false_ne_true]
  clear crosses
  induction h with
  | nil => rfl
  | cons hp _ ih => rw [List.filterMap_cons_some (number?_of_placeOf hp), ih]

theorem string_of_parse {text : String} {c : Change s} (h : parse s text = .ok c) :
    c.row.toList = Packed.change s.bells (Packed.writtenPlaces s text.toList) := by
  rw [parse, ofToken_eq_ok_iff] at h
  rcases h with ⟨x, hx, isCross, rfl⟩ | ⟨-, places, read, made⟩
  · rw [hx, Packed.writtenPlaces, if_pos (by simpa using isCross), string_cross]
  · rw [writtenPlaces_of_placeOf read]
    exact string_of_ofMade (by simp) made

theorem apply_of (c : Change s) (r : Row s) : apply (.of c) (.of r) = .ok (.of (r * c.row)) := by
  change (Staged.require (.of r) s "apply" >>= fun r => _) = _
  rw [Staged.require_of]
  rfl

theorem eq_of_apply {c : Change s} {r q : Row s} (h : apply (.of c) (.of r) = .ok (.of q)) :
    q = r * c.row := by
  rw [apply_of] at h
  cases h
  rfl

end Change

/-! ## Strings of blocks, reports and tables -/

namespace Block

theorem allRows_of_ofRows {rs : List (Row s)} {leftover : Row s} {ends : List ℤ} {b : Block s}
    (h : ofRows s (rs.map .of) (.of leftover) ends = .ok b) : b.allRows = rs ++ [leftover] := by
  obtain ⟨rs', hrows, h⟩ := bind_eq_ok_iff.1 h
  obtain ⟨leftover', hleftover, h⟩ := bind_eq_ok_iff.1 h
  rw [mapM_require_map_of] at hrows
  rw [Staged.require_of] at hleftover
  cases hrows
  cases hleftover
  split at h
  · cases h
    rfl
  · cases h

theorem eq_of_begunFromAny {head : Row s} {b b' : Block s}
    (h : b.begunFromAny (.of head) = .ok b') : b' = b.begunFrom head := by
  rw [begunFromAny_of] at h
  exact (Except.ok.inj h).symm

theorem allRows_begunFrom (head : Row s) (b : Block s) :
    (b.begunFrom head).allRows = b.allRows.map (head * ·) := by
  simp [begunFrom, allRows]

theorem eq_of_proveHeads {unit : Block s} {heads : List (Row s)} {stop : Bool}
    {report : Report (Row s)} (h : unit.proveHeads (heads.map .of) stop = .ok report) :
    report = unit.proveCopies heads stop := by
  rw [proveHeads, requireAll_map_of] at h
  exact (Except.ok.inj h).symm

end Block

/-- A repeated row has the string at the offset at which it stands again. -/
theorem strings_of_tells {report : Report (Row s)} {stop : Bool} {locate : ℕ → Position}
    {rows : List (Row s)} (h : report.Tells stop locate rows) :
    (report.clashes.map Clash.row).map Row.toList =
      report.clashes.map fun c => (rows.map Row.toList).getD c.second.offset [] := by
  rw [List.map_map]
  refine List.map_congr_left fun c hc => ?_
  rw [List.getD_eq_getElem?_getD, List.getElem?_map, (h.first c hc).1]
  rfl

namespace QuotientTable

theorem of_getElem?_witnesses {unit : Block s} {q : Row s} {a b : ℕ}
    (w : (ofBlock unit).witnesses[q]? = some (a, b)) :
    ∃ x y, unit.rows[a]? = some x ∧ unit.rows[b]? = some y ∧ q = y * x⁻¹ := by
  rw [getElem?_witnesses] at w
  obtain ⟨⟨⟨x, a'⟩, y, b'⟩, found, e⟩ := Option.map_eq_some_iff.1 w
  cases e
  have both := List.pair_mem_product.1 (List.mem_of_find?_eq_some found)
  refine ⟨x, y, List.mem_zipIdx_iff_getElem?.1 both.1, List.mem_zipIdx_iff_getElem?.1 both.2, ?_⟩
  have quotient := List.find?_some found
  exact (beq_iff_eq.1 quotient).symm

/-- A false head has the string under which it is entered. -/
theorem string_of_mem_falseHeads {unit : Block s} {q : Row s}
    (h : q ∈ (ofBlock unit).falseHeads) :
    q.toList = Packed.entry (ofBlock unit) (unit.rows.map Row.toList) q := by
  rw [falseHeads, List.mem_mergeSort, Std.HashMap.mem_keys] at h
  obtain ⟨⟨a, b⟩, entered⟩ : ∃ w, (ofBlock unit).witnesses[q]? = some w :=
    ⟨_, Std.HashMap.getElem?_eq_some_getElem h⟩
  obtain ⟨x, y, hx, hy, rfl⟩ := of_getElem?_witnesses entered
  rw [Packed.entry, entered]
  simp only [List.getD_eq_getElem?_getD, List.getElem?_map, hx, hy, Option.map_some,
    Option.getD_some, Row.toList_mul, Row.toList_inv]

/-- A row which copies share is the product of a head and a row of the unit. -/
theorem eq_mul_of_clash? {unit : Block s} {heads : List (Row s)} {p : (Row s × ℕ) × Row s × ℕ}
    (hp : p ∈ pairs heads.zipIdx) {c : Clash (Row s)} (h : (ofBlock unit).clash? p = some c) :
    ∃ g x, heads[c.first.lead]? = some g ∧ unit.rows[c.first.index]? = some x ∧
      c.row = g * x := by
  obtain ⟨a, b, x, -, hx, rfl⟩ := clash?_eq_some_iff.1 h
  exact ⟨_, x, (mem_pairs_zipIdx.1 hp).2.1, hx, rfl⟩

/-- A row which the unit repeats in itself is so too, in the copy of the first head. -/
theorem eq_mul_of_innerClash? {unit : Block s} {heads : List (Row s)} {c : Clash (Row s)}
    (h : (ofBlock unit).innerClash? heads = some c) :
    ∃ g x, heads[c.first.lead]? = some g ∧ unit.rows[c.first.index]? = some x ∧
      c.row = g * x := by
  cases heads with
  | nil => simp at h
  | cons g hs =>
    rw [innerClash?_cons] at h
    obtain ⟨found, hfound, rfl⟩ := Option.map_eq_some_iff.1 h
    obtain ⟨x, hx, hit⟩ := List.exists_of_findSome?_eq_some hfound
    exact ⟨g, _, rfl, (getElem?_of_repeatAt? hx hit).2.1, rfl⟩

theorem eq_mul_of_mem_clashes {unit : Block s} {heads : List (Row s)} {stop : Bool}
    {c : Clash (Row s)} (h : c ∈ ((ofBlock unit).prove heads stop).clashes) :
    ∃ g x, heads[c.first.lead]? = some g ∧ unit.rows[c.first.index]? = some x ∧
      c.row = g * x := by
  unfold prove at h
  split at h
  · rename_i inner
    rw [List.mem_singleton.1 h]
    exact eq_mul_of_innerClash? inner
  · rcases List.mem_append.1 h with inner | found
    · exact eq_mul_of_innerClash? (Option.mem_toList.1 inner)
    · obtain ⟨p, hp, hit⟩ := mem_survey _ _ found
      exact eq_mul_of_clash? hp hit

theorem eq_of_proveHeads {t : QuotientTable s} {heads : List (Row s)} {stop : Bool}
    {report : Report (Row s)} (h : t.proveHeads (heads.map .of) stop = .ok report) :
    report = t.prove heads stop := by
  rw [proveHeads, requireAll_map_of] at h
  exact (Except.ok.inj h).symm

theorem strings_of_prove (unit : Block s) (heads : List (Row s)) (stop : Bool) :
    (((ofBlock unit).prove heads stop).clashes.map Clash.row).map Row.toList =
      ((ofBlock unit).prove heads stop).clashes.map fun c =>
        Packed.mul ((heads.map Row.toList).getD c.first.lead [])
          ((unit.rows.map Row.toList).getD c.first.index []) := by
  rw [List.map_map]
  refine List.map_congr_left fun c hc => ?_
  obtain ⟨g, x, hg, hx, row⟩ := eq_mul_of_mem_clashes hc
  simp only [Function.comp_apply, row, Row.toList_mul, List.getD_eq_getElem?_getD,
    List.getElem?_map, hg, hx, Option.map_some, Option.getD_some]

end QuotientTable

namespace Computed

/-- **The strings computed for rows are those of the rows**, whatever operations they are obtained
by. -/
theorem bytes_eq {rs : List (Row s)} {xs : List (List ℕ)} (h : Computed s rs xs) :
    rs.map Row.toList = xs := by
  induction h with
  | nil => rfl
  | append _ _ ihr ihq => rw [List.map_append, ihr, ihq]
  | some indices _ ih =>
    rw [← ih, List.map_filterMap]
    simp only [List.getElem?_map]
  | parse h => rw [List.map_singleton, Row.toList_of_parse h]
  | parseAny h => rw [List.map_singleton, Row.toList_of_parse (Row.parse_of_parseAny h)]
  | ofNumbers h => rw [List.map_singleton, Row.toList_of_ofNumbers h]
  | ofNumbersAny h =>
    rw [List.map_singleton, Row.toList_of_ofNumbers (Row.ofNumbers_of_ofNumbersAny h)]
  | rounds => rw [List.map_singleton, Row.toList_rounds]
  | backrounds => rw [List.map_singleton, Row.toList_backrounds]
  | multiply _ _ h iha ihb =>
    obtain rfl := List.singleton_inj.1 iha
    obtain rfl := List.singleton_inj.1 ihb
    rw [List.map_singleton, Row.eq_of_multiply h, Row.toList_mul]
  | inverse _ ih =>
    obtain rfl := List.singleton_inj.1 ih
    rw [List.map_singleton, Row.toList_inv]
  | pow k _ ih =>
    obtain rfl := List.singleton_inj.1 ih
    rw [List.map_singleton, Row.toList_pow]
  | transposition _ _ h iha ihb =>
    obtain rfl := List.singleton_inj.1 iha
    obtain rfl := List.singleton_inj.1 ihb
    rw [List.map_singleton, Row.eq_of_transposition h, Row.toList_leftQuotient]
  | ofPlaces h => rw [List.map_singleton, Change.string_of_ofPlaces h]
  | cross => rw [List.map_singleton, Change.string_cross]
  | parseChange h => rw [List.map_singleton, Change.string_of_parse h]
  | parseLead _ => simp only [List.map_map, Function.comp_def, Change.string_of_places]
  | apply _ _ h ihc ihr =>
    obtain rfl := List.singleton_inj.1 ihc
    obtain rfl := List.singleton_inj.1 ihr
    rw [List.map_singleton, Change.eq_of_apply h, Row.toList_mul]
  | start _ ih => exact ih
  | extend _ _ h iht ihc =>
    obtain rfl := List.singleton_inj.1 ihc
    obtain ⟨-, d, e, rfl⟩ := Touch.extend_eq_ok_iff.1 h
    cases e
    exact (Touch.bytes_ring ..).trans (by rw [Touch.bytes, iht])
  | extendAll _ _ first size iht ihc =>
    rw [Touch.extendAll_eq_of_size first size, ← iht, ← ihc, List.map_map]
    exact Touch.bytes_ringAll ..
  | markLead _ h ih =>
    obtain ⟨-, rows, rfl⟩ := Touch.markLead_eq_ok_iff.1 h
    exact ih
  | stand _ h ih =>
    obtain ⟨-, rfl, -⟩ := Touch.stand_eq_ok_iff.1 h
    exact ih
  | ring _ _ h ihseed ihlead =>
    obtain rfl := List.singleton_inj.1 ihseed
    obtain ⟨ne, rung⟩ := ringing_of_ring h
    rw [bytes_ringing ne rung, ← ihlead, List.map_map]
    rfl
  | ofRows _ _ h ihr ihl => rw [Block.allRows_of_ofRows h, List.map_append, ihr, ihl]
  | begunFromAny _ _ h ihhead ihb =>
    obtain rfl := List.singleton_inj.1 ihhead
    rw [Block.eq_of_begunFromAny h, Block.allRows_begunFrom, ← ihb, List.map_map, List.map_map]
    exact List.map_congr_left fun r _ => Row.toList_mul _ r
  | prove stop _ ih =>
    rw [← ih]
    exact strings_of_tells (tells_reportRepeats stop (fun _ => rfl) _)
  | proveHeads _ _ h ihu ihh =>
    rw [Block.eq_of_proveHeads h, ← ihu, ← ihh, ← Row.map_toList_copies]
    exact strings_of_tells (tells_reportRepeats _ (fun _ => rfl) _)
  | falseHeads _ ih =>
    rw [← ih]
    exact List.map_congr_left fun q hq => QuotientTable.string_of_mem_falseHeads hq
  | tableHeads _ _ h ihu ihh =>
    rw [QuotientTable.eq_of_proveHeads h, ← ihu, ← ihh]
    exact QuotientTable.strings_of_prove ..

theorem isRow {rs : List (Row s)} {xs : List (List ℕ)} (h : Computed s rs xs) :
    ∀ x ∈ xs, Packed.IsRow s x := by
  intro x hx
  rw [← h.bytes_eq] at hx
  obtain ⟨r, -, rfl⟩ := List.mem_map.1 hx
  exact r.isRow_toList

/-- Strings that are those of rows pass the check. -/
theorem exists_ofNumbers {rs : List (Row s)} {xs : List (List ℕ)} (h : rs.map Row.toList = xs) :
    ∀ x ∈ xs, ∃ r : Row s, Row.ofNumbers s (x.map Nat.cast) = .ok r := by
  rintro x hx
  rw [← h] at hx
  obtain ⟨r, -, rfl⟩ := List.mem_map.1 hx
  exact ⟨r, Row.ofNumbers_map_cast.2 rfl⟩

end Computed

/-- **Every string that is computed for a row is a row.** Whatever operations of the library rows
are obtained by, the strings computed for them have as many bytes as there are bells and each bell
once, and are those of the rows. So nothing is found wrong with any product of heads and a unit, or
with any quotient of the rows of a unit, when it is checked again. -/
theorem computed_strings_are_rows (s : Stage) :
    (∀ rs xs, Computed s rs xs → xs = rs.map Row.toList ∧ ∀ x ∈ xs, Packed.IsRow s x) ∧
    (∀ unit us heads hs, Computed s unit us → Computed s heads hs →
      ∀ x ∈ Packed.copies hs us, ∃ r : Row s, Row.ofNumbers s (x.map Nat.cast) = .ok r) ∧
    ∀ unit us, Computed s unit us →
      ∀ x ∈ Packed.quotients us, ∃ r : Row s, Row.ofNumbers s (x.map Nat.cast) = .ok r := by
  refine ⟨fun rs xs h => ⟨h.bytes_eq.symm, h.isRow⟩, fun unit us heads hs hu hh => ?_,
    fun unit us hu => ?_⟩
  · have copies := Row.map_toList_copies heads unit
    rw [hh.bytes_eq, hu.bytes_eq] at copies
    exact Computed.exists_ofNumbers copies
  · have quotients := Row.map_toList_quotients unit
    rw [hu.bytes_eq] at quotients
    exact Computed.exists_ofNumbers quotients

/-- Rounds and the row after a cross at three bells, from backrounds. -/
theorem computed_strings_are_rows_three_bells :
    let s : Stage := ⟨3, by decide, by decide⟩
    let unit := [Row.rounds s, Row.rounds s * (Change.cross s).row]
    Computed s unit [[0, 1, 2], [1, 0, 2]] ∧ Computed s [Row.backrounds s] [[2, 1, 0]] ∧
      Packed.IsRow s [1, 0, 2] ∧
      (∃ r : Row s, Row.ofNumbers s [1, 2, 0] = .ok r) ∧
      ∃ r : Row s, Row.ofNumbers s [1, 0, 2] = .ok r := by
  intro s unit
  have crossed : Packed.mul (List.range 3) (Packed.change 3 []) = [1, 0, 2] := by
    rw [show Packed.change 3 [] = _ from (Change.string_cross (s := s)).symm]
    decide
  have rung : Computed s unit [[0, 1, 2], [1, 0, 2]] := by
    rw [← crossed]
    exact .append .rounds (.apply .cross .rounds (Change.apply_of ..))
  have head : Computed s [Row.backrounds s] [[2, 1, 0]] := .backrounds
  obtain ⟨rows, copies, quotients⟩ := computed_strings_are_rows s
  exact ⟨rung, head, (rows _ _ rung).2 _ (by decide),
    copies _ _ _ _ rung head [1, 2, 0] (by decide), quotients _ _ rung [1, 0, 2] (by decide)⟩

end Campanology
