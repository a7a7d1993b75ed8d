import Mathlib.Algebra.BigOperators.Group.List.Basic
import Mathlib.Algebra.GroupWithZero.Nat
import FramedTree.Proofs.SlotLedger
import FramedTree.Table

/-! # Who holds a value

A value comes into a row when it is put into a slot, and leaves it when it is handed to the caller
or released. To follow one value through overwriting, taking, clearing and dropping, and through
changes in place, every value gets a number as it comes in. The numbers decide nothing: without them
the run is the one that has no numbers. For each number the slots that have it and the times that it
has left add up to one, at every moment.
-/

namespace FramedTree

namespace Table

variable {κ α : Type} [DecidableEq κ]

def total (weight : α → Nat) (table : Table κ α) : Nat :=
  (table.rows.map fun row => weight row.2).sum

def Distinct (table : Table κ α) : Prop := (table.rows.map (·.1)).Nodup

private theorem total_set (weight : α → Nat) (table : Table κ α) (key : κ) (value : α) :
    (table.set key value).total weight + (table.find? key).elim 0 weight =
      table.total weight + weight value := by
  obtain ⟨rows⟩ := table
  simp only [total, set, find?]
  induction rows with
  | nil => simp [setRow]
  | cons row rest ih =>
    obtain ⟨first, old⟩ := row
    by_cases hkey : first = key
    case pos =>
      subst hkey
      simp only [setRow, if_true, List.lookup_cons_self, List.map_cons, List.sum_cons,
        Option.elim_some]
      omega
    case neg =>
      simp only [setRow, hkey, if_false, List.lookup_cons, beq_eq_false_iff_ne.2 (Ne.symm hkey),
        List.map_cons, List.sum_cons]
      omega

private theorem total_erase (weight : α → Nat) {table : Table κ α} (h : table.Distinct) (key : κ) :
    (table.erase key).total weight + (table.find? key).elim 0 weight = table.total weight := by
  obtain ⟨rows⟩ := table
  simp only [Distinct, total, erase, find?] at h ⊢
  induction rows with
  | nil => rfl
  | cons row rest ih =>
    obtain ⟨first, old⟩ := row
    obtain ⟨hfirst, hrest⟩ := List.nodup_cons.1 h
    by_cases hkey : first = key
    case pos =>
      subst hkey
      have hothers : rest.filter (·.1 != first) = rest := by
        refine List.filter_eq_self.2 fun other hother => bne_iff_ne.2 ?_
        rintro hsame
        exact hfirst (List.mem_map.2 ⟨other, hother, hsame⟩)
      simp only [List.filter_cons, bne_self_eq_false, Bool.false_eq_true, if_false, hothers,
        List.lookup_cons_self, Option.elim_some, List.map_cons, List.sum_cons]
      omega
    case neg =>
      have hrest := ih hrest
      simp only [List.filter_cons, bne_iff_ne.2 hkey, if_true, List.lookup_cons,
        beq_eq_false_iff_ne.2 (Ne.symm hkey), List.map_cons, List.sum_cons]
      omega

private theorem mem_setRow {key other : κ} {value : α} {rows : List (κ × α)}
    (h : other ∈ (setRow key value rows).map (·.1)) : other = key ∨ other ∈ rows.map (·.1) := by
  induction rows with
  | nil => simpa [setRow] using h
  | cons row rest ih =>
    by_cases hkey : row.1 = key
    case pos =>
      simp only [setRow, hkey, if_true, List.map_cons, List.mem_cons] at h ⊢
      exact h.imp_right .inr
    case neg =>
      simp only [setRow, hkey, if_false, List.map_cons, List.mem_cons] at h ⊢
      rcases h with h | h
      · exact .inr (.inl h)
      · exact (ih h).imp_right .inr

private theorem Distinct.set {table : Table κ α} (h : table.Distinct) (key : κ) (value : α) :
    (table.set key value).Distinct := by
  obtain ⟨rows⟩ := table
  simp only [Distinct, Table.set] at h ⊢
  induction rows with
  | nil => simp [setRow]
  | cons row rest ih =>
    obtain ⟨hfirst, hrest⟩ := List.nodup_cons.1 h
    by_cases hkey : row.1 = key
    case pos =>
      simp only [setRow, hkey, if_true, List.map_cons]
      exact hkey ▸ h
    case neg =>
      simp only [setRow, hkey, if_false, List.map_cons]
      refine List.nodup_cons.2 ⟨fun hmem => ?_, ih hrest⟩
      rcases mem_setRow hmem with h | h
      · exact hkey h
      · exact hfirst h

private theorem Distinct.erase {table : Table κ α} (h : table.Distinct) (key : κ) :
    (table.erase key).Distinct :=
  List.Nodup.sublist (List.filter_sublist.map Prod.fst) h

end Table

namespace Slots

variable {α β : Type}

/-- The value that an action puts into a row, if it puts one there. -/
def Action.brings (slots : Slots α) : Action α → Option α
  | .set _ value | .emplace _ value _ | .push value => some value
  | .getOrInsert i value _ => if (slots.get? i).isNone then some value else none
  | _ => none

/-- The values that a reply hands to the caller for good. -/
def Reply.leaving : Reply α → List α
  | .handed value => value.toList
  | _ => []

/-- Number of slots whose value satisfies `p`. -/
def count (p : α → Bool) (slots : Slots α) : Nat := slots.cells.countP (·.any p)

/-- An action that changes no value in a way that `p` could see. -/
def Action.Spares (p : α → Bool) : Action α → Prop
  | .update _ f | .emplace _ _ f | .getOrInsert _ _ f => ∀ value, p (f value) = p value
  | .updateEach f => ∀ i value, p (f i value) = p value
  | _ => True

section count

variable (p : α → Bool) (slots : Slots α)

private theorem count_eq : slots.count p = slots.values.countP p := by
  rw [count, values, ← Array.countP_toList]
  induction slots.cells.toList with
  | nil => rfl
  | cons cell cells ih => cases cell <;> simp [List.countP_cons, ih]

private theorem countP_set_add {cells : List (Option α)} {i : Nat} (hi : i < cells.length)
    (cell : Option α) :
    (cells.set i cell).countP (·.any p) + cells[i]?.join.toList.countP p =
      cells.countP (·.any p) + cell.toList.countP p := by
  have hcell (cell : Option α) : cell.toList.countP p = if cell.any p then 1 else 0 := by
    cases cell <;> simp [List.countP_cons]
  induction cells generalizing i with
  | nil => cases hi
  | cons first cells ih =>
    cases i with
    | zero =>
      simp only [List.set_cons_zero, List.countP_cons, List.getElem?_cons_zero,
        Option.join_some, hcell]
      omega
    | succ i =>
      have hrest := ih (Nat.lt_of_succ_lt_succ hi)
      simp only [List.set_cons_succ, List.countP_cons, List.getElem?_cons_succ]
      omega

private theorem count_insert (i : Nat) (value : α) :
    (slots.insert i value).count p + (slots.get? i).toList.countP p =
      slots.count p + [value].countP p := by
  have hi : i < (slots.grow (i + 1)).cells.toList.length := by
    simp only [grow, size, Array.length_toList, Array.size_append, Array.size_replicate]
    omega
  have hget : (slots.grow (i + 1)).cells.toList[i]?.join = slots.get? i := by
    simp only [get?, grow, Array.getElem?_toList, Array.getElem?_append, Array.getElem?_replicate]
    grind
  have hgrow : (slots.grow (i + 1)).cells.toList.countP (·.any p) = slots.count p := by
    simp [grow, count, List.countP_replicate]
  have hset := countP_set_add p hi (some value)
  rw [hget, hgrow] at hset
  rwa [count, insert, ← Array.countP_toList, Array.toList_setIfInBounds]

private theorem count_erase (i : Nat) :
    (slots.erase i).count p + (slots.get? i).toList.countP p = slots.count p := by
  rw [count, erase, ← Array.countP_toList, Array.toList_setIfInBounds]
  by_cases hi : i < slots.cells.toList.length
  case pos =>
    have hset := countP_set_add p hi none
    rw [Array.getElem?_toList] at hset
    simpa [count, get?] using hset
  case neg =>
    have hsize : slots.size ≤ i := Nat.le_of_not_lt (slots.length_cells ▸ hi)
    rw [List.set_eq_of_length_le (Nat.le_of_not_lt hi), get?_eq_none_of_size_le hsize]
    simp [count]

private theorem count_push (value : α) :
    (slots.push value).count p = slots.count p + [value].countP p := by
  simp [count, push, Array.countP_push, List.countP_cons]

variable {p}

private theorem count_modifyAll {f : Nat → α → α} (hf : ∀ i value, p (f i value) = p value) :
    (slots.modifyAll f).count p = slots.count p := by
  have hcells (cells : List (Option α)) (f : Nat → α → α)
    (hf : ∀ i value, p (f i value) = p value) :
      (cells.mapIdx fun i => Option.map (f i)).countP (·.any p) = cells.countP (·.any p) := by
    induction cells generalizing f with
    | nil => rfl
    | cons cell cells ih =>
      have hrest := ih (fun i => f (i + 1)) fun i => hf (i + 1)
      cases cell <;> simp [List.countP_cons, hrest, hf]
  simpa [count, modifyAll, ← Array.countP_toList] using hcells slots.cells.toList f hf

private theorem modify_eq_modifyAll (i : Nat) (f : α → α) :
    slots.modify i f = slots.modifyAll fun j => if j = i then f else id := by
  apply eq_of_get?
  · rw [size_modify, size_modifyAll]
  · intro j
    rw [get?_modify, get?_modifyAll]
    by_cases hj : j = i <;> simp [hj]

private theorem count_modify (i : Nat) {f : α → α} (hf : ∀ value, p (f value) = p value) :
    (slots.modify i f).count p = slots.count p := by
  rw [modify_eq_modifyAll]
  apply count_modifyAll
  intro j value
  by_cases hj : j = i <;> simp [hj, hf]

private theorem count_perform {action : Action α} (h : action.Spares p) :
    (slots.perform action).slots.count p + (slots.perform action).reply.leaving.countP p +
        (slots.perform action).released.countP p =
      slots.count p + (action.brings slots).toList.countP p := by
  cases action with
  | get i => rfl
  | update i f => exact count_modify slots i h
  | set i value => exact count_insert p slots i value
  | emplace i value f =>
    have hinsert := count_insert p slots i value
    have hmodify := count_modify (slots.insert i value) i h
    simp only [perform, Reply.leaving, Action.brings, Option.toList_some, List.countP_nil]
    omega
  | getOrInsert i value f =>
    have hinsert := count_insert p slots i value
    cases hget : slots.get? i with
    | none =>
      have hmodify := count_modify (slots.insert i value) i h
      rw [hget] at hinsert
      simpa [perform, Reply.leaving, Action.brings, hget, hmodify] using hinsert
    | some old =>
      simpa [perform, Reply.leaving, Action.brings, hget] using count_modify slots i h
  | push value => exact count_push p slots value
  | take i => exact count_erase p slots i
  | list => rfl
  | updateEach f => exact count_modifyAll slots h
  | clear =>
    rw [count_eq p slots]
    exact Nat.zero_add _

end count

def relabel (g : β → α) (slots : Slots β) : Slots α := ⟨slots.cells.map (Option.map g)⟩

section relabel

variable (g : β → α) (slots : Slots β)

@[simp] theorem size_relabel : (slots.relabel g).size = slots.size := by
  simp [size, relabel]

@[simp] theorem get?_relabel (i : Nat) : (slots.relabel g).get? i = (slots.get? i).map g := by
  simp only [get?, relabel, Array.getElem?_map]
  rcases slots.cells[i]? with _ | _ | value <;> rfl

private theorem relabel_empty : ({} : Slots β).relabel g = {} := by
  simp [relabel]

private theorem values_relabel : (slots.relabel g).values = slots.values.map g := by
  simp only [values, relabel, Array.toList_map, List.filterMap_map, List.map_filterMap]
  rfl

private theorem relabel_insert (i : Nat) (value : β) :
    (slots.insert i value).relabel g = (slots.relabel g).insert i (g value) := by
  apply eq_of_get?
  · simp [size_insert]
  · intro j
    simp only [get?_relabel, get?_insert]
    split <;> rfl

private theorem relabel_push (value : β) :
    (slots.push value).relabel g = (slots.relabel g).push (g value) := by
  apply eq_of_get?
  · simp
  · intro j
    simp only [get?_relabel, get?_push, size_relabel]
    split <;> rfl

private theorem relabel_erase (i : Nat) :
    (slots.erase i).relabel g = (slots.relabel g).erase i := by
  apply eq_of_get?
  · simp
  · intro j
    simp only [get?_relabel, get?_erase]
    split <;> rfl

variable {g}

private theorem relabel_modifyAll {f : Nat → β → β} {f' : Nat → α → α}
    (h : ∀ i value, g (f i value) = f' i (g value)) :
    (slots.modifyAll f).relabel g = (slots.relabel g).modifyAll f' := by
  apply eq_of_get?
  · simp
  · intro i
    simp only [get?_relabel, get?_modifyAll, Option.map_map]
    congr 1
    funext value
    exact h i value

private theorem relabel_modify (i : Nat) {f : β → β} {f' : α → α}
    (h : ∀ value, g (f value) = f' (g value)) :
    (slots.modify i f).relabel g = (slots.relabel g).modify i f' := by
  rw [modify_eq_modifyAll, modify_eq_modifyAll]
  apply relabel_modifyAll
  intro j value
  by_cases hj : j = i <;> simp [hj, h]

end relabel

/-- The action on values that have numbers; a value that comes in gets the number `n`. -/
def Action.numbered (n : Nat) : Action α → Action (Nat × α)
  | .get i => .get i
  | .update i f => .update i (Prod.map id f)
  | .set i value => .set i (n, value)
  | .emplace i value f => .emplace i (n, value) (Prod.map id f)
  | .getOrInsert i value f => .getOrInsert i (n, value) (Prod.map id f)
  | .push value => .push (n, value)
  | .take i => .take i
  | .list => .list
  | .updateEach f => .updateEach fun i => Prod.map id (f i)
  | .clear => .clear

def hasNumber (n : Nat) (value : Nat × α) : Bool := value.1 == n

private theorem spares_numbered (n number : Nat) (action : Action α) :
    (action.numbered n).Spares (hasNumber number) := by
  cases action <;> first | trivial | exact fun _ => rfl | exact fun _ _ => rfl

private theorem brings_numbered (slots : Slots (Nat × α)) (action : Action α) (n : Nat) :
    (action.numbered n).brings slots = (action.brings (slots.relabel Prod.snd)).map (n, ·) := by
  cases action with
  | getOrInsert i value f =>
    cases hget : slots.get? i <;> simp [Action.numbered, Action.brings, hget]
  | _ => rfl

private theorem perform_numbered (slots : Slots (Nat × α)) (action : Action α) (n : Nat) :
    let outcome := slots.perform (action.numbered n)
    let plain := (slots.relabel Prod.snd).perform action
    plain.slots = outcome.slots.relabel Prod.snd ∧
      plain.reply.leaving = outcome.reply.leaving.map Prod.snd ∧
      plain.released = outcome.released.map Prod.snd := by
  have hmodify (slots : Slots (Nat × α)) (i : Nat) (f : α → α) :
      (slots.modify i (Prod.map id f)).relabel Prod.snd = (slots.relabel Prod.snd).modify i f :=
    relabel_modify slots i fun _ => rfl
  cases action with
  | get i => exact ⟨rfl, rfl, rfl⟩
  | update i f => exact ⟨(hmodify slots i f).symm, rfl, rfl⟩
  | set i value =>
    refine ⟨(relabel_insert Prod.snd slots i (n, value)).symm, ?_, rfl⟩
    simp only [perform, Action.numbered, Reply.leaving, get?_relabel]
    cases slots.get? i <;> rfl
  | emplace i value f =>
    refine ⟨?_, rfl, ?_⟩
    · simp only [perform, Action.numbered, hmodify, relabel_insert]
    · simp only [perform, Action.numbered, get?_relabel]
      cases slots.get? i <;> rfl
  | getOrInsert i value f =>
    refine ⟨?_, rfl, rfl⟩
    simp only [perform, Action.numbered, hmodify, get?_relabel, Option.isNone_map]
    split
    · rw [relabel_insert]
    · rfl
  | push value => exact ⟨(relabel_push Prod.snd slots (n, value)).symm, rfl, rfl⟩
  | take i =>
    refine ⟨(relabel_erase Prod.snd slots i).symm, ?_, rfl⟩
    simp only [perform, Action.numbered, Reply.leaving, get?_relabel]
    cases slots.get? i <;> rfl
  | list => exact ⟨rfl, rfl, rfl⟩
  | updateEach f =>
    have heach : (slots.modifyAll fun i => Prod.map id (f i)).relabel Prod.snd =
        (slots.relabel Prod.snd).modifyAll f :=
      relabel_modifyAll slots fun _ _ => rfl
    exact ⟨heach.symm, rfl, rfl⟩
  | clear => exact ⟨(relabel_empty Prod.snd).symm, rfl, values_relabel Prod.snd slots⟩

inductive Deed (α : Type) where
  | act (row : String) (action : Action α)
  /-- Gives a row up, with all that it holds. -/
  | drop (row : String)

/-- The deed on values that have numbers; a value that comes in gets the number `n`. -/
def Deed.numbered (n : Nat) : Deed α → Deed (Nat × α)
  | .act row action => .act row (action.numbered n)
  | .drop row => .drop row

/-- Rows that go by names, with the values that have come in and the values that have left. -/
structure Estate (α : Type) where
  rows : Table String (Slots α) := {}
  brought : List α := []
  /-- The values that were handed to the caller, in order. -/
  handed : List α := []
  /-- The values that were let go, in order. -/
  released : List α := []

namespace Estate

def row (estate : Estate α) (name : String) : Slots α := (estate.rows.find? name).getD {}

def names (estate : Estate α) : List String := estate.rows.rows.map (·.1)

def step (estate : Estate α) : Deed α → Estate α
  | .act name action =>
    let outcome := (estate.row name).perform action
    { rows := estate.rows.set name outcome.slots
      brought := estate.brought ++ (action.brings (estate.row name)).toList
      handed := estate.handed ++ outcome.reply.leaving
      released := estate.released ++ outcome.released }
  | .drop name =>
    { estate with
      rows := estate.rows.erase name
      released := estate.released ++ (estate.row name).values }

def after (deeds : List (Deed α)) : Estate α := deeds.foldl step {}

/-- A deed on values with numbers; they are numbered in the order in which they come in. -/
def trace (estate : Estate (Nat × α)) (deed : Deed α) : Estate (Nat × α) :=
  estate.step (deed.numbered estate.brought.length)

/-- What comes of deeds when every value gets a number. -/
def traced (deeds : List (Deed α)) : Estate (Nat × α) := deeds.foldl trace {}

def plain (estate : Estate (Nat × α)) : Estate α where
  rows := ⟨estate.rows.rows.map fun row => (row.1, row.2.relabel Prod.snd)⟩
  brought := estate.brought.map Prod.snd
  handed := estate.handed.map Prod.snd
  released := estate.released.map Prod.snd

/-- Number of slots, in all rows, that hold the value with number `n`. -/
def holders (estate : Estate (Nat × α)) (n : Nat) : Nat := estate.rows.total (count (hasNumber n))

def departures (estate : Estate (Nat × α)) (n : Nat) : Nat :=
  estate.handed.countP (hasNumber n) + estate.released.countP (hasNumber n)

/-- What is held and what has left is what has come in. -/
structure Balanced (estate : Estate (Nat × α)) : Prop where
  distinct : estate.rows.Distinct
  numbers : estate.brought.map Prod.fst = List.range estate.brought.length
  balance : ∀ n, estate.holders n + estate.departures n = estate.brought.countP (hasNumber n)

private theorem elim_count_find? (estate : Estate α) (p : α → Bool) (name : String) :
    (estate.rows.find? name).elim 0 (count p) = (estate.row name).count p := by
  rw [row]
  cases estate.rows.find? name <;> rfl

private theorem Balanced.act {estate : Estate (Nat × α)} (h : estate.Balanced) (name : String)
    (action : Action α) : (estate.trace (.act name action)).Balanced where
  distinct := h.distinct.set _ _
  numbers := by
    simp only [trace, Deed.numbered, step, brings_numbered, List.map_append, h.numbers]
    cases action.brings ((estate.row name).relabel Prod.snd) with
    | none => simp
    | some value => simp [List.range_succ]
  balance n := by
    have hmoved := count_perform (estate.row name)
      (spares_numbered estate.brought.length n action)
    have htotal := Table.total_set (count (hasNumber n)) estate.rows name
      ((estate.row name).perform (action.numbered estate.brought.length)).slots
    have hbalance := h.balance n
    rw [elim_count_find?] at htotal
    simp only [trace, Deed.numbered, step, holders, departures, List.countP_append] at hbalance ⊢
    omega

private theorem Balanced.drop {estate : Estate (Nat × α)} (h : estate.Balanced) (name : String) :
    (estate.trace (.drop name)).Balanced where
  distinct := h.distinct.erase _
  numbers := h.numbers
  balance n := by
    have htotal := Table.total_erase (count (hasNumber n)) h.distinct name
    have hbalance := h.balance n
    rw [elim_count_find?, count_eq] at htotal
    simp only [trace, Deed.numbered, step, holders, departures, List.countP_append] at hbalance ⊢
    omega

private theorem balanced_traced (deeds : List (Deed α)) : (traced deeds).Balanced := by
  have hrun (estate : Estate (Nat × α)) (h : estate.Balanced) :
    (deeds.foldl trace estate).Balanced := by
    induction deeds generalizing estate with
    | nil => exact h
    | cons deed rest ih =>
      cases deed with
      | act name action => exact ih _ (h.act name action)
      | drop name => exact ih _ (h.drop name)
  exact hrun {} ⟨List.nodup_nil, rfl, fun _ => rfl⟩

private theorem Balanced.countP_brought {estate : Estate (Nat × α)} (h : estate.Balanced)
    (n : Nat) :
    estate.brought.countP (hasNumber n) = if n < estate.brought.length then 1 else 0 := by
  have hcount : estate.brought.countP (hasNumber n) = (estate.brought.map Prod.fst).count n := by
    rw [List.count, List.countP_map]
    rfl
  rw [hcount, h.numbers]
  split
  case isTrue hn =>
    rw [List.nodup_range.count, if_pos (List.mem_range.2 hn)]
  case isFalse hn => exact List.count_eq_zero.2 fun hmem => hn (List.mem_range.1 hmem)

private theorem plain_row (estate : Estate (Nat × α)) (name : String) :
    estate.plain.row name = (estate.row name).relabel Prod.snd := by
  simp only [row, plain, Table.find?]
  induction estate.rows.rows with
  | nil => exact (relabel_empty Prod.snd).symm
  | cons entry rest ih =>
    obtain ⟨first, slots⟩ := entry
    by_cases hname : name = first
    · simp [hname]
    · simpa [List.lookup_cons, beq_eq_false_iff_ne.2 hname] using ih

private theorem setRow_relabel (name : String) (slots : Slots (Nat × α))
    (rows : List (String × Slots (Nat × α))) :
    (Table.setRow name slots rows).map (fun row => (row.1, row.2.relabel Prod.snd)) =
      Table.setRow name (slots.relabel Prod.snd)
        (rows.map fun row => (row.1, row.2.relabel Prod.snd)) := by
  induction rows with
  | nil => rfl
  | cons row rest ih =>
    by_cases hname : row.1 = name
    · simp [Table.setRow, hname]
    · simp [Table.setRow, hname, ih]

private theorem plain_trace (estate : Estate (Nat × α)) (deed : Deed α) :
    (estate.trace deed).plain = estate.plain.step deed := by
  cases deed with
  | act name action =>
    obtain ⟨hslots, hhanded, hreleased⟩ :=
      perform_numbered (estate.row name) action estate.brought.length
    have hbrought : (action.brings (estate.plain.row name)).toList =
        ((action.numbered estate.brought.length).brings (estate.row name)).toList.map Prod.snd := by
      rw [brings_numbered, plain_row]
      cases action.brings ((estate.row name).relabel Prod.snd) <;> rfl
    simp only [step, hbrought]
    simp only [plain_row, hslots, hhanded, hreleased]
    simp only [trace, Deed.numbered, step, plain, List.map_append, Table.set, setRow_relabel]
  | drop name =>
    simp only [step, plain_row, values_relabel]
    simp only [trace, Deed.numbered, step, plain, List.map_append, Table.erase, List.filter_map]
    rfl

private theorem plain_traced (deeds : List (Deed α)) : (traced deeds).plain = after deeds := by
  have hrun (estate : Estate (Nat × α)) :
      (deeds.foldl trace estate).plain = deeds.foldl step estate.plain := by
    induction deeds generalizing estate with
    | nil => rfl
    | cons deed rest ih =>
      simp only [List.foldl_cons]
      rw [ih, plain_trace]
  exact hrun {}

private theorem trace_drops (names : List String) (estate : Estate (Nat × α)) :
    let last := (names.map Deed.drop).foldl trace estate
    last.rows.rows = estate.rows.rows.filter (fun row => row.1 ∉ names) ∧
      last.brought = estate.brought := by
  induction names generalizing estate with
  | nil => exact ⟨(List.filter_eq_self.2 (by simp)).symm, rfl⟩
  | cons name names ih =>
    obtain ⟨hrows, hbrought⟩ := ih (estate.trace (.drop name))
    refine ⟨hrows.trans ?_, hbrought⟩
    simp only [trace, Deed.numbered, step, Table.erase, List.filter_filter]
    congr 1
    funext row
    by_cases hname : row.1 = name <;> simp [hname]

private theorem traced_drop_names (deeds : List (Deed α)) :
    let last := traced (deeds ++ (after deeds).names.map .drop)
    (∀ n, last.holders n = 0) ∧ last.brought = (traced deeds).brought := by
  obtain ⟨hrows, hbrought⟩ := trace_drops (after deeds).names (traced deeds)
  rw [traced, List.foldl_append]
  refine ⟨fun n => ?_, hbrought⟩
  have hnames : (after deeds).names = (traced deeds).rows.rows.map (·.1) := by
    rw [← plain_traced, names, plain, List.map_map]
    rfl
  have hnone : (traced deeds).rows.rows.filter (fun row => row.1 ∉ (after deeds).names) = [] := by
    rw [List.filter_eq_nil_iff]
    intro row hrow
    simpa [hnames] using ⟨row.2, hrow⟩
  have hempty := hrows.trans hnone
  rw [holders, Table.total]
  simp only [traced] at hempty
  rw [hempty]
  rfl

end Estate
end Slots
end FramedTree
