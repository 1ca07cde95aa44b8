/-
Finite tables from keys to values, kept as a list of entries. A table is read
through `get?` alone, and its one primitive change is `alter`, which replaces
the value at a key by a function of it. The two laws of `alter` hold for every
table, so nothing has to be known about how the entries are arranged.
-/

namespace ThreeAddress

/-- A finite table. -/
structure Table (κ α : Type) where
  entries : List (κ × α) := []
deriving DecidableEq, Repr

namespace Table

variable {κ α : Type} [DecidableEq κ]

/-- The first value stored for a key in a list of entries. -/
def find? (key : κ) : List (κ × α) → Option α
  | [] => none
  | (other, value) :: rest => if other = key then some value else find? key rest

/-- The entries with another value, or none, at a key. -/
def alterEntries (key : κ) (change : Option α → Option α) : List (κ × α) → List (κ × α)
  | [] =>
    match change none with
    | none => []
    | some value => [(key, value)]
  | (other, value) :: rest =>
    if other = key then
      match change (some value) with
      | none => rest.filter fun entry => entry.1 ≠ key
      | some value => (key, value) :: rest
    else (other, value) :: alterEntries key change rest

/-- The value at a key. -/
def get? (table : Table κ α) (key : κ) : Option α :=
  find? key table.entries

/-- Replaces the value at a key by a function of it; `none` stands for no entry. -/
def alter (table : Table κ α) (key : κ) (change : Option α → Option α) : Table κ α :=
  ⟨alterEntries key change table.entries⟩

/-- Stores a value at a key. -/
def put (table : Table κ α) (key : κ) (value : α) : Table κ α :=
  table.alter key fun _ => some value

/-- Drops the entry at a key. -/
def erase (table : Table κ α) (key : κ) : Table κ α :=
  table.alter key fun _ => none

/-- Keeps the entries that satisfy a test. -/
def filter (keep : κ → α → Bool) (table : Table κ α) : Table κ α :=
  ⟨table.entries.filter fun entry => keep entry.1 entry.2⟩

/-- How many entries a table has. -/
def size (table : Table κ α) : Nat :=
  table.entries.length

@[simp] theorem get?_empty (key : κ) : ({} : Table κ α).get? key = none := rfl

theorem find?_filter_ne (key other : κ) (entries : List (κ × α)) :
    find? other (entries.filter fun entry => entry.1 ≠ key) =
      if other = key then none else find? other entries := by
  induction entries with
  | nil => simp [find?]
  | cons entry rest inductionHypothesis =>
    obtain ⟨name, value⟩ := entry
    by_cases atKey : name = key
    · subst atKey
      have dropped : ((name, value) :: rest).filter (fun entry => entry.1 ≠ name) =
          rest.filter fun entry => entry.1 ≠ name := by simp
      rw [dropped, inductionHypothesis]
      by_cases same : other = name
      · simp [same]
      · simp [same, find?, Ne.symm same]
    · have kept : ((name, value) :: rest).filter (fun entry => entry.1 ≠ key) =
          (name, value) :: rest.filter fun entry => entry.1 ≠ key := by simp [atKey]
      rw [kept, find?, find?, inductionHypothesis]
      by_cases hit : name = other
      · have different : other ≠ key := fun same => atKey (hit.trans same)
        simp [hit, different]
      · simp [hit]

theorem find?_alterEntries (key other : κ) (change : Option α → Option α)
    (entries : List (κ × α)) :
    find? other (alterEntries key change entries) =
      if other = key then change (find? key entries) else find? other entries := by
  induction entries with
  | nil =>
    simp only [alterEntries, find?]
    cases change none with
    | none => simp [find?]
    | some value => simp [find?, eq_comm]
  | cons entry rest inductionHypothesis =>
    obtain ⟨name, value⟩ := entry
    by_cases atKey : name = key
    · subst atKey
      simp only [alterEntries, find?, if_true]
      cases change (some value) with
      | none =>
        rw [find?_filter_ne]
        by_cases same : other = name
        · simp [same]
        · simp [same, Ne.symm same]
      | some changed =>
        by_cases same : other = name
        · simp [find?, same]
        · simp [find?, same, Ne.symm same]
    · simp only [alterEntries, find?, if_neg atKey, inductionHypothesis]
      by_cases hit : name = other
      · have different : other ≠ key := fun same => atKey (hit.trans same)
        simp [hit, different]
      · simp [hit]

/-- Reading a key that was just changed gives the changed value. -/
@[simp] theorem get?_alter_self (table : Table κ α) (key : κ) (change : Option α → Option α) :
    (table.alter key change).get? key = change (table.get? key) := by
  simp [get?, alter, find?_alterEntries]

/-- Changing one key leaves the others as they were. -/
theorem get?_alter_of_ne (table : Table κ α) {key other : κ} (different : other ≠ key)
    (change : Option α → Option α) : (table.alter key change).get? other = table.get? other := by
  simp [get?, alter, find?_alterEntries, different]

end Table

end ThreeAddress
