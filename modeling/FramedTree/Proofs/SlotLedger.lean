import FramedTree.Slots.Action

/-! # Slots as a ledger

What a row of slots shows is a matter of its history only. A ledger keeps the two things that count:
into which slots values were put since the row was last cleared, and which value each slot has now.
It knows nothing of cells, of growing or of gaps. A row that starts empty answers every action as
the ledger does, and has one slot more than the largest number in the ledger.
-/

namespace FramedTree.Slots

variable {α : Type}

/-- Performs actions one after another and gives their replies. -/
def performAll : List (Action α) → Slots α → List (Reply α) × Slots α
  | [], slots => ([], slots)
  | action :: rest, slots =>
    let outcome := slots.perform action
    let (replies, slots) := performAll rest outcome.slots
    (outcome.reply :: replies, slots)

private theorem toList_eq (slots : Slots α) :
    slots.toList = (List.range slots.size).filterMap fun i => (slots.get? i).map (i, ·) := by
  obtain ⟨cells⟩ := slots
  have hindexed : cells.toList.zipIdx =
      (List.range cells.size).map fun i => (cells[i]?.join, i) := by
    apply List.ext_getElem?
    intro i
    by_cases hi : i < cells.size
    case pos => simp [hi]
    case neg => simp [Nat.le_of_not_lt hi]
  simp only [toList, size, get?, hindexed, List.filterMap_map]
  rfl

/-- The numbers in the list go up. -/
theorem pairwise_toList (slots : Slots α) :
    slots.toList.Pairwise fun one other => one.1 < other.1 := by
  rw [toList_eq, List.pairwise_filterMap]
  refine List.pairwise_lt_range.imp ?_
  intro i j hij one hone other hother
  obtain ⟨value, -, rfl⟩ := Option.map_eq_some_iff.1 hone
  obtain ⟨value', -, rfl⟩ := Option.map_eq_some_iff.1 hother
  exact hij

theorem map_snd_toList (slots : Slots α) : slots.toList.map (·.2) = slots.values := by
  have hpairs (cells : List (Option α)) (n : Nat) :
      ((cells.zipIdx n).filterMap fun pair => pair.1.map fun value => (pair.2, value)).map (·.2) =
        cells.filterMap id := by
    induction cells generalizing n with
    | nil => rfl
    | cons cell cells ih => cases cell <;> simp [List.zipIdx_cons, ih]
  exact hpairs slots.cells.toList 0

private theorem length_values (slots : Slots α) : slots.values.length = slots.occupied := by
  rw [values, occupied, ← Array.countP_toList, List.length_filterMap_eq_countP]
  rfl

private theorem length_toList (slots : Slots α) : slots.toList.length = slots.occupied := by
  rw [← length_values, ← map_snd_toList, List.length_map]

/-- What the history of a row comes to. -/
structure Ledger (α : Type) where
  /-- The slots that values were put into since the row was last cleared, the last first. -/
  installed : List Nat := []
  /-- The value that was last put into each slot, with what was changed about it, unless it has
  left. -/
  value : Nat → Option α := fun _ => none

namespace Ledger

/-- One more than the largest number of a slot that a value was put into. -/
def extent (ledger : Ledger α) : Nat := ledger.installed.max?.elim 0 (· + 1)

def pairs (ledger : Ledger α) : List (Nat × α) :=
  (List.range ledger.extent).filterMap fun i => (ledger.value i).map (i, ·)

def assign (ledger : Ledger α) (i : Nat) (value : Option α) : Ledger α :=
  { ledger with value := fun j => if j = i then value else ledger.value j }

def install (ledger : Ledger α) (i : Nat) (value : α) : Ledger α :=
  { ledger.assign i (some value) with installed := i :: ledger.installed }

/-- The ledger after an action. -/
def note (ledger : Ledger α) : Action α → Ledger α
  | .get _ | .list => ledger
  | .update i f => ledger.assign i ((ledger.value i).map f)
  | .set i value => ledger.install i value
  | .emplace i value f => ledger.install i (f value)
  | .getOrInsert i value f =>
    match ledger.value i with
    | none => ledger.install i (f value)
    | some old => ledger.assign i (some (f old))
  | .push value => ledger.install ledger.extent value
  | .take i => ledger.assign i none
  | .updateEach f => { ledger with value := fun i => (ledger.value i).map (f i) }
  | .clear => {}

/-- What an action is answered, going by the ledger before it. -/
def answer (ledger : Ledger α) : Action α → Reply α
  | .get i => .held (ledger.value i)
  | .update i f => .held ((ledger.value i).map f)
  | .set i _ | .take i => .handed (ledger.value i)
  | .emplace _ value f => .held (some (f value))
  | .getOrInsert i value f =>
    match ledger.value i with
    | none => .installed (some (f value)) true
    | some old => .installed (some (f old)) false
  | .push _ => .index ledger.extent
  | .list => .pairs ledger.pairs
  | .updateEach f => .pairs (ledger.pairs.map fun (i, value) => (i, f i value))
  | .clear => .nothing

/-- Notes actions one after another and gives their answers. -/
def noteAll : List (Action α) → Ledger α → List (Reply α) × Ledger α
  | [], ledger => ([], ledger)
  | action :: rest, ledger =>
    let (answers, last) := noteAll rest (ledger.note action)
    (ledger.answer action :: answers, last)

private theorem extent_install (ledger : Ledger α) (i : Nat) (value : α) :
    (ledger.install i value).extent = max ledger.extent (i + 1) := by
  simp only [extent, install, List.max?_cons]
  cases ledger.installed.max? with
  | none => simp
  | some top =>
    simp only [Option.elim_some]
    omega

/-- The ledger says what the row has. -/
structure Describes (ledger : Ledger α) (slots : Slots α) : Prop where
  size : slots.size = ledger.extent
  get? : ∀ i, slots.get? i = ledger.value i

namespace Describes

variable {ledger : Ledger α} {slots : Slots α}

private theorem empty : ({} : Ledger α).Describes {} := ⟨rfl, fun _ => rfl⟩

private theorem toList (h : ledger.Describes slots) : slots.toList = ledger.pairs := by
  simp only [toList_eq, pairs, h.size, h.get?]

private theorem insert (h : ledger.Describes slots) (i : Nat) (value : α) :
    (ledger.install i value).Describes (slots.insert i value) where
  size := by rw [size_insert, extent_install, h.size]
  get? j := by
    rw [get?_insert, h.get?]
    rfl

private theorem push (h : ledger.Describes slots) (value : α) :
    (ledger.install ledger.extent value).Describes (slots.push value) where
  size := by
    rw [size_push, extent_install, h.size]
    omega
  get? j := by
    rw [get?_push, h.get?, h.size]
    rfl

private theorem erase (h : ledger.Describes slots) (i : Nat) :
    (ledger.assign i none).Describes (slots.erase i) where
  size := (size_erase slots i).trans h.size
  get? j := by
    rw [get?_erase, h.get?]
    rfl

private theorem modify (h : ledger.Describes slots) (i : Nat) (f : α → α) :
    (ledger.assign i ((ledger.value i).map f)).Describes (slots.modify i f) where
  size := (size_modify slots i f).trans h.size
  get? j := by
    rw [get?_modify, h.get?]
    by_cases hj : j = i <;> simp [assign, hj]

private theorem insert_modify (h : ledger.Describes slots) (i : Nat) (value : α) (f : α → α) :
    (ledger.install i (f value)).Describes ((slots.insert i value).modify i f) where
  size := by rw [size_modify, size_insert, extent_install, h.size]
  get? j := by
    rw [get?_modify, get?_insert, h.get?]
    by_cases hj : j = i <;> simp [install, assign, hj]

private theorem modifyAll (h : ledger.Describes slots) (f : Nat → α → α) :
    (ledger.note (.updateEach f)).Describes (slots.modifyAll f) where
  size := (size_modifyAll slots f).trans h.size
  get? i := by
    rw [get?_modifyAll, h.get?]
    rfl

private theorem perform (h : ledger.Describes slots) (action : Action α) :
    (ledger.note action).Describes (slots.perform action).slots := by
  cases action with
  | get i => exact h
  | update i f => exact h.modify i f
  | set i value => exact h.insert i value
  | emplace i value f => exact h.insert_modify i value f
  | getOrInsert i value f =>
    simp only [Slots.perform, note, h.get?]
    cases hvalue : ledger.value i with
    | none => exact h.insert_modify i value f
    | some old => simpa [hvalue] using h.modify i f
  | push value => exact h.push value
  | take i => exact h.erase i
  | list => exact h
  | updateEach f => exact h.modifyAll f
  | clear => exact .empty

private theorem reply (h : ledger.Describes slots) (action : Action α) :
    (slots.perform action).reply = ledger.answer action := by
  have hafter := h.perform action
  cases action with
  | get i => exact congrArg Reply.held (h.get? i)
  | update i f =>
    simp only [Slots.perform, answer, get?_modify, if_true, h.get?]
  | set i value => exact congrArg Reply.handed (h.get? i)
  | emplace i value f =>
    simp only [Slots.perform, answer, get?_modify, get?_insert, if_true, Option.map_some]
  | getOrInsert i value f =>
    simp only [Slots.perform, answer, get?_modify, if_true, h.get?]
    cases hvalue : ledger.value i with
    | none => simp [get?_insert]
    | some old => simp [h.get?, hvalue]
  | push value => exact congrArg Reply.index h.size
  | take i => exact congrArg Reply.handed (h.get? i)
  | list => exact congrArg Reply.pairs h.toList
  | updateEach f =>
    refine congrArg Reply.pairs (hafter.toList.trans ?_)
    simp only [pairs, note, List.map_filterMap, Option.map_map]
    rfl
  | clear => rfl

private theorem performAll (h : ledger.Describes slots) (actions : List (Action α)) :
    (performAll actions slots).1 = (noteAll actions ledger).1 ∧
      (noteAll actions ledger).2.Describes (performAll actions slots).2 := by
  induction actions generalizing ledger slots with
  | nil => exact ⟨rfl, h⟩
  | cons action rest ih =>
    obtain ⟨hreplies, hlast⟩ := ih (h.perform action)
    refine ⟨?_, hlast⟩
    simp only [Slots.performAll, noteAll, h.reply action, hreplies]

end Describes
end Ledger

/-- A row that starts empty is the ledger of its history: it replies as the ledger does, it has one
slot more than the largest number that a value was put under since the last clearing, and each slot
has the value that was last put there and not taken since. Its list is exactly what the slots hold,
in strictly increasing order, and rows are equal if the same can be seen of them. -/
theorem performAll_eq_noteAll [DecidableEq α] (actions : List (Action α)) :
    (performAll actions {}).1 = (Ledger.noteAll actions {}).1 ∧
      let slots := (performAll actions {}).2
      let ledger := (Ledger.noteAll actions {}).2
      slots.size = ledger.extent ∧
        (∀ i, slots.get? i = ledger.value i) ∧
        (∀ i, slots.size ≤ i → slots.get? i = none) ∧
        (∀ i, (slots.perform (.take i)).slots.size = slots.size) ∧
        slots.toList = ledger.pairs ∧
        (slots.toList.Pairwise fun one other => one.1 < other.1) ∧
        (∀ i value, (i, value) ∈ slots.toList ↔ slots.get? i = some value) ∧
        slots.occupied = slots.toList.length ∧
        ∀ other : Slots α,
          (slots == other) = true ↔ slots.size = other.size ∧ ∀ i, slots.get? i = other.get? i := by
  obtain ⟨hreplies, hlast⟩ := Ledger.Describes.empty.performAll actions
  refine ⟨hreplies, hlast.size, hlast.get?, fun i => get?_eq_none_of_size_le,
    fun i => size_erase _ i, hlast.toList, pairwise_toList _, mem_toList _, (length_toList _).symm,
      fun other => ?_⟩
  rw [beq_iff_eq]
  constructor
  · rintro heq
    rw [heq]
    exact ⟨rfl, fun _ => rfl⟩
  · rintro ⟨hsize, hget⟩
    exact eq_of_get? hsize hget

end FramedTree.Slots
