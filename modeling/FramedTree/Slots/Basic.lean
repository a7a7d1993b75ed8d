/-! # Sparse slots

A row of numbered slots, each of which holds at most one value. The row grows as far as the largest
number that a value was put under; emptying a slot keeps the slot. Values are listed in slot order.
-/

namespace FramedTree

structure Slots (α : Type) where
  cells : Array (Option α) := #[]
  deriving DecidableEq, Repr

namespace Slots

variable {α : Type}

instance : Inhabited (Slots α) := ⟨{}⟩

/-- Number of slots, empty ones included. -/
def size (slots : Slots α) : Nat := slots.cells.size

def isEmpty (slots : Slots α) : Bool := slots.cells.isEmpty

/-- The value in slot `i`; none for an empty slot and past the end. -/
def get? (slots : Slots α) (i : Nat) : Option α := slots.cells[i]?.join

/-- At least `count` slots, the new ones empty. -/
def grow (slots : Slots α) (count : Nat) : Slots α :=
  ⟨slots.cells ++ Array.replicate (count - slots.size) none⟩

/-- Puts `value` into slot `i`, over what was there, and grows the row as far as needed. The new
size `i + 1` is taken to fit a machine word of 64 bits, as it does for every row that fits into
memory; it is not checked. -/
def insert (slots : Slots α) (i : Nat) (value : α) : Slots α :=
  ⟨(slots.grow (i + 1)).cells.setIfInBounds i (some value)⟩

def push (slots : Slots α) (value : α) : Slots α := ⟨slots.cells.push (some value)⟩

/-- Empties slot `i`; the slot stays. -/
def erase (slots : Slots α) (i : Nat) : Slots α := ⟨slots.cells.setIfInBounds i none⟩

/-- Changes the value in slot `i`, if there is one. -/
def modify (slots : Slots α) (i : Nat) (f : α → α) : Slots α :=
  ⟨slots.cells.modify i (Option.map f)⟩

/-- Changes every value, knowing the number of its slot. -/
def modifyAll (slots : Slots α) (f : Nat → α → α) : Slots α :=
  ⟨slots.cells.mapIdx fun i => Option.map (f i)⟩

/-- The values with the numbers of their slots, in slot order. -/
def toList (slots : Slots α) : List (Nat × α) :=
  slots.cells.toList.zipIdx.filterMap fun (cell, i) => cell.map fun value => (i, value)

def values (slots : Slots α) : List α := slots.cells.toList.filterMap id

def occupied (slots : Slots α) : Nat := slots.cells.countP Option.isSome

theorem size_insert (slots : Slots α) (i : Nat) (value : α) :
    (slots.insert i value).size = max slots.size (i + 1) := by
  simp only [size, insert, grow, Array.size_setIfInBounds, Array.size_append, Array.size_replicate]
  omega

/-- A value that was put into a slot is found there, and no other slot changes. -/
theorem get?_insert (slots : Slots α) (i j : Nat) (value : α) :
    (slots.insert i value).get? j = if j = i then some value else slots.get? j := by
  simp only [get?, insert, grow, size, Array.getElem?_setIfInBounds, Array.getElem?_append,
    Array.getElem?_replicate, Array.size_append, Array.size_replicate]
  grind

@[simp] theorem size_push (slots : Slots α) (value : α) :
    (slots.push value).size = slots.size + 1 := by
  simp [size, push]

theorem get?_push (slots : Slots α) (i : Nat) (value : α) :
    (slots.push value).get? i = if i = slots.size then some value else slots.get? i := by
  simp only [get?, push, size, Array.getElem?_push]
  grind

@[simp] theorem size_erase (slots : Slots α) (i : Nat) : (slots.erase i).size = slots.size := by
  simp [size, erase]

theorem get?_erase (slots : Slots α) (i j : Nat) :
    (slots.erase i).get? j = if j = i then none else slots.get? j := by
  simp only [get?, erase, Array.getElem?_setIfInBounds]
  grind

@[simp] theorem size_modify (slots : Slots α) (i : Nat) (f : α → α) :
    (slots.modify i f).size = slots.size := by
  simp [size, modify]

theorem get?_modify (slots : Slots α) (i j : Nat) (f : α → α) :
    (slots.modify i f).get? j = if j = i then (slots.get? j).map f else slots.get? j := by
  simp only [get?, modify, Array.getElem?_modify]
  grind

@[simp] theorem size_modifyAll (slots : Slots α) (f : Nat → α → α) :
    (slots.modifyAll f).size = slots.size := by
  simp [size, modifyAll]

theorem get?_modifyAll (slots : Slots α) (i : Nat) (f : Nat → α → α) :
    (slots.modifyAll f).get? i = (slots.get? i).map (f i) := by
  simp only [get?, modifyAll, Array.getElem?_mapIdx]
  rcases slots.cells[i]? with _ | _ | value <;> rfl

theorem get?_eq_none_of_size_le {slots : Slots α} {i : Nat} (h : slots.size ≤ i) :
    slots.get? i = none := by
  have hcell : slots.cells[i]? = none := Array.getElem?_eq_none h
  rw [get?, hcell, Option.join_none]

@[simp] theorem get?_size (slots : Slots α) : slots.get? slots.size = none :=
  get?_eq_none_of_size_le (Nat.le_refl _)

theorem lt_size_of_get? {slots : Slots α} {i : Nat} {value : α} (h : slots.get? i = some value) :
    i < slots.size := by
  apply Nat.lt_of_not_le
  intro hpast
  rw [get?_eq_none_of_size_le hpast] at h
  cases h

/-- Rows with as many slots and the same values in them are the same. -/
theorem eq_of_get? {slots other : Slots α} (hsize : slots.size = other.size)
    (hget : ∀ i, slots.get? i = other.get? i) : slots = other := by
  obtain ⟨cells⟩ := slots
  obtain ⟨cells'⟩ := other
  simp only [size, get?, mk.injEq] at hsize hget ⊢
  apply Array.ext hsize
  intro i hi hi'
  simpa [Array.getElem?_eq_getElem hi, Array.getElem?_eq_getElem hi'] using hget i

/-- Putting a value back where it is changes nothing. -/
theorem modify_self {slots : Slots α} {i : Nat} {value : α} (h : slots.get? i = some value) :
    slots.modify i (fun _ => value) = slots := by
  apply eq_of_get? (size_modify ..)
  intro j
  rw [get?_modify]
  split
  case isTrue hj => rw [hj, h, Option.map_some]
  case isFalse => rfl

theorem insert_self {slots : Slots α} {i : Nat} {value : α} (h : slots.get? i = some value) :
    slots.insert i value = slots := by
  apply eq_of_get?
  · rw [size_insert, Nat.max_eq_left (lt_size_of_get? h)]
  · intro j
    rw [get?_insert]
    split
    case isTrue hj => rw [hj, h]
    case isFalse => rfl

theorem modify_insert (slots : Slots α) (i : Nat) (value value' : α) :
    (slots.insert i value).modify i (fun _ => value') = slots.insert i value' := by
  apply eq_of_get?
  · rw [size_modify, size_insert, size_insert]
  · intro j
    rw [get?_modify, get?_insert, get?_insert]
    split <;> rfl

theorem modify_modify (slots : Slots α) (i : Nat) (value value' : α) :
    (slots.modify i fun _ => value).modify i (fun _ => value') = slots.modify i fun _ =>
      value' := by
  apply eq_of_get?
  · rw [size_modify, size_modify, size_modify]
  · intro j
    rw [get?_modify, get?_modify, get?_modify]
    split
    · rw [Option.map_map]
      rfl
    · rfl

/-! A row as the list of its cells. -/

@[simp] theorem size_ofCells (cells : List (Option α)) :
    (⟨cells.toArray⟩ : Slots α).size = cells.length :=
  List.size_toArray

@[simp] theorem get?_ofCells (cells : List (Option α)) (i : Nat) :
    (⟨cells.toArray⟩ : Slots α).get? i = cells[i]?.join := by
  rw [get?, List.getElem?_toArray]

theorem length_cells (slots : Slots α) :
    slots.cells.toList.length = slots.size := Array.length_toList

theorem join_cells (slots : Slots α) (i : Nat) : slots.cells.toList[i]?.join = slots.get? i := by
  rw [get?, Array.getElem?_toList]

/-- In a row without gaps, every cell holds a value. -/
theorem isSome_of_mem_cells {slots : Slots α} (h : ∀ i < slots.size, (slots.get? i).isSome) :
    ∀ cell ∈ slots.cells.toList, cell.isSome := by
  intro cell hcell
  obtain ⟨i, hi⟩ := List.mem_iff_getElem?.1 hcell
  obtain ⟨hlength, -⟩ := List.getElem?_eq_some_iff.1 hi
  have hslot := h i (slots.length_cells ▸ hlength)
  rwa [← join_cells, hi] at hslot

/-- The list holds exactly what the slots hold. -/
theorem mem_toList (slots : Slots α) (i : Nat) (value : α) :
    (i, value) ∈ slots.toList ↔ slots.get? i = some value := by
  simp only [toList, get?, List.mem_filterMap, List.mem_zipIdx_iff_getElem?, Prod.exists,
    Option.map_eq_some_iff, Option.join_eq_some_iff, Array.getElem?_toList]
  grind

/-- The numbers of the slots that hold a value, in order. -/
theorem map_fst_toList (slots : Slots α) :
    slots.toList.map (·.1) = (slots.cells.toList.zipIdx.filter fun pair => pair.1.isSome).map
      (·.2) := by
  have hpairs (pairs : List (Option α × Nat)) :
      (pairs.filterMap fun pair => pair.1.map fun value => (pair.2, value)).map (·.1) =
        (pairs.filter fun pair => pair.1.isSome).map (·.2) := by
    induction pairs with
    | nil => rfl
    | cons pair pairs ih =>
      obtain ⟨cell, i⟩ := pair
      cases cell with
      | none => simpa using ih
      | some value => simpa using ih
  exact hpairs slots.cells.toList.zipIdx

end Slots
end FramedTree
