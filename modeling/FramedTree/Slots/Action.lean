import FramedTree.Slots.Basic

/-! # Actions on slots

Each action says what it answers and which values leave the row with it. A value leaves either
because it is handed to the caller or because it is released; whoever holds it before an action,
exactly one of row, caller and release holds it afterwards.
-/

namespace FramedTree.Slots

inductive Action (α : Type) where
  /-- Looks at slot `i`. -/
  | get (i : Nat)
  /-- Changes the value in slot `i` in place. -/
  | update (i : Nat) (f : α → α)
  /-- Puts a value into slot `i` and hands back the one before. -/
  | set (i : Nat) (value : α)
  /-- Puts a value into slot `i`, releases the one before, then changes the new one in place. -/
  | emplace (i : Nat) (value : α) (f : α → α)
  /-- Puts a value into slot `i` if it is empty, then changes the value in place. -/
  | getOrInsert (i : Nat) (value : α) (f : α → α)
  /-- Puts a value into a new slot. -/
  | push (value : α)
  /-- Takes the value out of slot `i`. -/
  | take (i : Nat)
  /-- Lists the values. -/
  | list
  /-- Changes every value in place, each in its own way, and lists them. -/
  | updateEach (f : Nat → α → α)
  /-- Releases all values and drops all slots. -/
  | clear

/-- Changes all values in place in the same way and lists them. -/
def Action.updateAll {α : Type} (f : α → α) : Action α := .updateEach fun _ => f

inductive Reply (α : Type) where
  | nothing
  /-- A value that is still in its slot. -/
  | held (value : Option α)
  /-- A value that has left its slot and belongs to the caller. -/
  | handed (value : Option α)
  /-- A value in its slot, and whether it was put there by this action. -/
  | installed (value : Option α) (made : Bool)
  | index (i : Nat)
  | pairs (values : List (Nat × α))
  deriving DecidableEq, Repr

structure Outcome (α : Type) where
  slots : Slots α
  reply : Reply α := .nothing
  /-- The values that the action let go, in order. -/
  released : List α := []
  deriving DecidableEq, Repr

variable {α : Type}

def perform (slots : Slots α) : Action α → Outcome α
  | .get i => { slots, reply := .held (slots.get? i) }
  | .update i f =>
    let slots := slots.modify i f
    { slots, reply := .held (slots.get? i) }
  | .set i value => { slots := slots.insert i value, reply := .handed (slots.get? i) }
  | .emplace i value f =>
    let changed := (slots.insert i value).modify i f
    { slots := changed, reply := .held (changed.get? i), released := (slots.get? i).toList }
  | .getOrInsert i value f =>
    let made := (slots.get? i).isNone
    let changed := (if made then slots.insert i value else slots).modify i f
    { slots := changed, reply := .installed (changed.get? i) made }
  | .push value => { slots := slots.push value, reply := .index slots.size }
  | .take i => { slots := slots.erase i, reply := .handed (slots.get? i) }
  | .list => { slots, reply := .pairs slots.toList }
  | .updateEach f =>
    let slots := slots.modifyAll f
    { slots, reply := .pairs slots.toList }
  | .clear => { slots := {}, released := slots.values }

end FramedTree.Slots
