/-!
# Registers

A register keeps one thing for each key, in the order in which the keys came first. A key that
comes again keeps its place.

* `get?` looks a key up, `alter` and `put` write.
* `get?_alter` and `keys_alter` say what a write does to the things kept and to the order of keys.
-/

namespace Campanology

/-- A list of keys and of what is kept for them. -/
structure Register (κ α : Type) where
  entries : List (κ × α)
  deriving DecidableEq

namespace Register

variable {κ α : Type}

/-- The register without keys. -/
def empty : Register κ α := ⟨[]⟩

/-- The keys in order. -/
def keys (r : Register κ α) : List κ := r.entries.map Prod.fst

/-- The things kept, in the order of their keys. -/
def values (r : Register κ α) : List α := r.entries.map Prod.snd

/-- The number of keys. -/
def size (r : Register κ α) : Nat := r.entries.length

variable [DecidableEq κ]

/-- What is kept for a key. -/
def get? (r : Register κ α) (k : κ) : Option α :=
  (r.entries.find? fun e => e.1 = k).map Prod.snd

/-- The entries after writing `f` of what was kept for a key, at the end if nothing was. -/
def alterEntries (k : κ) (f : Option α → α) : List (κ × α) → List (κ × α)
  | [] => [(k, f none)]
  | e :: es => if e.1 = k then (k, f (some e.2)) :: es else e :: alterEntries k f es

/-- Writes `f` of what is kept for a key. -/
def alter (r : Register κ α) (k : κ) (f : Option α → α) : Register κ α :=
  ⟨alterEntries k f r.entries⟩

/-- Keeps a thing for a key, in place of what was kept. -/
def put (r : Register κ α) (k : κ) (x : α) : Register κ α := r.alter k fun _ => x

/-- The register which keeps, for each key, the last thing that comes with it. -/
def ofList (es : List (κ × α)) : Register κ α := es.foldl (fun r e => r.put e.1 e.2) empty

theorem get?_alter (r : Register κ α) (k : κ) (f : Option α → α) (k' : κ) :
    (r.alter k f).get? k' = if k' = k then some (f (r.get? k)) else r.get? k' := by
  obtain ⟨es⟩ := r
  simp only [alter, get?]
  induction es with
  | nil =>
    by_cases h : k' = k
    · simp [alterEntries, h]
    · simp [alterEntries, h, Ne.symm h]
  | cons e es ih =>
    by_cases he : e.1 = k
    · by_cases h : k' = k
      · simp [alterEntries, he, h]
      · simp [alterEntries, he, h, Ne.symm h]
    · by_cases h' : e.1 = k'
      · have h : ¬ k' = k := fun h => he (h' ▸ h)
        simp [alterEntries, h, h']
      · simp only [alterEntries, he, if_false, List.find?_cons, h', decide_false]
        exact ih

theorem keys_alter (r : Register κ α) (k : κ) (f : Option α → α) :
    (r.alter k f).keys = if k ∈ r.keys then r.keys else r.keys ++ [k] := by
  obtain ⟨es⟩ := r
  simp only [alter, keys]
  induction es with
  | nil => simp [alterEntries]
  | cons e es ih =>
    by_cases he : e.1 = k
    · simp [alterEntries, he]
    · simp only [alterEntries, he, if_false, List.map_cons, ih, List.mem_cons, Ne.symm he, false_or]
      split <;> simp_all

end Register

end Campanology
