/-! # Tables

A table keeps one value per key, such as a name. Keys stay in the order in which they first came.
-/

namespace FramedTree

structure Table (κ α : Type) where
  rows : List (κ × α) := []
  deriving DecidableEq, Repr

namespace Table

variable {κ α : Type} [DecidableEq κ]

instance : Inhabited (Table κ α) := ⟨{}⟩

def find? (table : Table κ α) (key : κ) : Option α := table.rows.lookup key

/-- Replaces the value in the row of `key`, or adds such a row at the end. -/
def setRow (key : κ) (value : α) : List (κ × α) → List (κ × α)
  | [] => [(key, value)]
  | row :: rest => if row.1 = key then (key, value) :: rest else row :: setRow key value rest

def set (table : Table κ α) (key : κ) (value : α) : Table κ α := ⟨setRow key value table.rows⟩

def erase (table : Table κ α) (key : κ) : Table κ α := ⟨table.rows.filter (·.1 != key)⟩

theorem lookup_setRow (key other : κ) (value : α) (rows : List (κ × α)) :
    (setRow key value rows).lookup other = if other = key then some value
      else rows.lookup other := by
  induction rows with
  | nil => by_cases h : other = key <;> simp [setRow, List.lookup_cons, h, beq_eq_false_iff_ne.mpr]
  | cons row rest ih =>
    obtain ⟨first, found⟩ := row
    by_cases hk : first = key
    · subst hk
      by_cases h : other = first
      · simp [setRow, h]
      · simp [setRow, List.lookup_cons, h, beq_eq_false_iff_ne.mpr]
    · simp only [setRow, hk, if_false, List.lookup_cons]
      by_cases h : other = first
      · subst h
        simp [hk]
      · simp [beq_eq_false_iff_ne.mpr h, ih]

/-- A key that has been set holds what it was set to, and no other key changes. -/
theorem find?_set (table : Table κ α) (key other : κ) (value : α) :
    (table.set key value).find? other = if other = key then some value else table.find? other :=
  lookup_setRow key other value table.rows

theorem find?_set_self (table : Table κ α) (key : κ) (value : α) :
    (table.set key value).find? key = some value := by
  rw [find?_set, if_pos rfl]

theorem set_set (table : Table κ α) (key : κ) (value value' : α) :
    (table.set key value).set key value' = table.set key value' := by
  obtain ⟨rows⟩ := table
  simp only [set, mk.injEq]
  induction rows with
  | nil => simp [setRow]
  | cons row rest ih =>
    by_cases hkey : row.1 = key
    · simp [setRow, hkey]
    · simp [setRow, hkey, ih]

/-- Putting a value back where it is changes nothing. -/
theorem set_self {table : Table κ α} {key : κ} {value : α} (h : table.find? key = some value) :
    table.set key value = table := by
  obtain ⟨rows⟩ := table
  simp only [find?, set, mk.injEq] at h ⊢
  induction rows with
  | nil => cases h
  | cons row rest ih =>
    obtain ⟨first, found⟩ := row
    by_cases hk : first = key
    · subst hk
      have : found = value := by simpa using h
      simp [setRow, this]
    · have hrest : rest.lookup key = some value := by
        simpa [List.lookup_cons, beq_eq_false_iff_ne.mpr (Ne.symm hk)] using h
      simp [setRow, hk, ih hrest]

end Table
end FramedTree
