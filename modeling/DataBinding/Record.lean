/-!
# Records

A finite map from names to things that keeps the order in which the names first came.  Writing a
present name keeps its place; removing a name closes the gap.

Main statements: what `get?` and `keys` answer after each of `set`, `erase` and `ofList`.
-/

namespace DataBinding

/-- Entries in the order in which their names first came. -/
structure Record (α : Type) where
  entries : List (String × α)
deriving Repr

namespace Record

variable {α : Type}

/-- The record without entries. -/
def empty : Record α := ⟨[]⟩

instance : Inhabited (Record α) := ⟨empty⟩

/-- The names, in order. -/
def keys (r : Record α) : List String := r.entries.map Prod.fst

/-- The number of entries. -/
def size (r : Record α) : Nat := r.entries.length

/-- What is stored under a name. -/
def get? (r : Record α) (key : String) : Option α := r.entries.lookup key

/-- Whether a name is present. -/
def has (r : Record α) (key : String) : Bool := (r.get? key).isSome

/-- The entries with `x` under `key`: in its place, or else at the end. -/
def setEntry (key : String) (x : α) : List (String × α) → List (String × α)
  | [] => [(key, x)]
  | (k, y) :: rest => if k = key then (key, x) :: rest else (k, y) :: setEntry key x rest

/-- Writes an entry. -/
def set (r : Record α) (key : String) (x : α) : Record α := ⟨setEntry key x r.entries⟩

/-- Removes an entry. -/
def erase (r : Record α) (key : String) : Record α := ⟨r.entries.filter (·.1 != key)⟩

/-- The record written entry by entry: a repeated name keeps its first place and its last
value. -/
def ofList (entries : List (String × α)) : Record α :=
  entries.foldl (fun r e => r.set e.1 e.2) empty

@[simp] theorem get?_empty (key : String) : (empty : Record α).get? key = none := rfl

@[simp] theorem get?_set_self (r : Record α) (key : String) (x : α) :
    (r.set key x).get? key = some x := by
  obtain ⟨entries⟩ := r
  simp only [get?, set]
  induction entries with
  | nil => simp [setEntry]
  | cons e rest ih =>
    obtain ⟨k, y⟩ := e
    by_cases h : k = key
    · simp [setEntry, h]
    · simpa [setEntry, h, List.lookup_cons, beq_false_of_ne (Ne.symm h)] using ih

@[simp] theorem get?_set_of_ne (r : Record α) {key other : String} (h : other ≠ key) (x : α) :
    (r.set key x).get? other = r.get? other := by
  obtain ⟨entries⟩ := r
  simp only [get?, set]
  induction entries with
  | nil => simp [setEntry, List.lookup_cons, beq_false_of_ne h]
  | cons e rest ih =>
    obtain ⟨k, y⟩ := e
    by_cases hk : k = key
    · simp [setEntry, hk, List.lookup_cons, beq_false_of_ne h]
    · simp [setEntry, hk, List.lookup_cons, ih]

@[simp] theorem get?_erase_self (r : Record α) (key : String) : (r.erase key).get? key = none := by
  obtain ⟨entries⟩ := r
  simp only [get?, erase]
  induction entries with
  | nil => rfl
  | cons e rest ih =>
    obtain ⟨k, y⟩ := e
    by_cases h : k = key
    · rwa [List.filter_cons_of_neg (by simp [h])]
    · rw [List.filter_cons_of_pos (by simp [h]), List.lookup_cons,
        beq_false_of_ne (Ne.symm h)]
      exact ih

@[simp] theorem get?_erase_of_ne (r : Record α) {key other : String} (h : other ≠ key) :
    (r.erase key).get? other = r.get? other := by
  obtain ⟨entries⟩ := r
  simp only [get?, erase]
  induction entries with
  | nil => rfl
  | cons e rest ih =>
    obtain ⟨k, y⟩ := e
    by_cases hk : k = key
    · rw [List.filter_cons_of_neg (by simp [hk]), List.lookup_cons, hk, beq_false_of_ne h]
      exact ih
    · rw [List.filter_cons_of_pos (by simp [hk]), List.lookup_cons, List.lookup_cons, ih]

/-- A present name keeps its place. -/
theorem keys_set_of_mem (r : Record α) {key : String} (h : key ∈ r.keys) (x : α) :
    (r.set key x).keys = r.keys := by
  obtain ⟨entries⟩ := r
  simp only [keys, set] at h ⊢
  induction entries with
  | nil => simp at h
  | cons e rest ih =>
    obtain ⟨k, y⟩ := e
    by_cases hk : k = key
    · simp [setEntry, hk]
    · have hm : key ∈ rest.map Prod.fst := by
        simpa only [List.map_cons, List.mem_cons, Ne.symm hk, false_or] using h
      simp only [setEntry, hk, if_false, List.map_cons, ih hm]

/-- A new name comes last. -/
theorem keys_set_of_notMem (r : Record α) {key : String} (h : key ∉ r.keys) (x : α) :
    (r.set key x).keys = r.keys ++ [key] := by
  obtain ⟨entries⟩ := r
  simp only [keys, set] at h ⊢
  induction entries with
  | nil => rfl
  | cons e rest ih =>
    obtain ⟨k, y⟩ := e
    rw [List.map_cons, List.mem_cons, not_or] at h
    simp only [setEntry, Ne.symm h.1, if_false, List.map_cons, ih h.2, List.cons_append]

theorem keys_erase (r : Record α) (key : String) :
    (r.erase key).keys = r.keys.filter (· != key) := by
  simp [keys, erase, List.filter_map, Function.comp_def]

end Record

end DataBinding
