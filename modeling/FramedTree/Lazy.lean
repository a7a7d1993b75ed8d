import FramedTree.Access
import FramedTree.Source

/-! # Lazy cells

A cell holds a value, or knows where to load it from, or is to be built on first use. A loaded value
is kept, so that it is loaded at most once; a failed load leaves the cell as it was. Values that
were only looked at and values that were handed out for change are kept in two places, of which at
most one is taken.
-/

namespace FramedTree

/-- A value that is loaded on first use. -/
structure Lazy (α : Type) where
  /-- The value, once it may have been changed. -/
  owned : Option α := none
  /-- The value, while it has only been looked at. -/
  shared : Option α := none
  /-- Where the value is stored. -/
  origin : Option Origin := none
  deriving DecidableEq, Repr

namespace Lazy

variable {α β σ : Type}

instance : Inhabited (Lazy α) := ⟨{}⟩

def ofValue (value : α) : Lazy α := { owned := some value }

/-- A cell whose value is stored in a frame. -/
def stored (source : Source) (position : UInt64) : Lazy α := { origin := some ⟨source, position⟩ }

/-- The value, if it is there. -/
def peek (cell : Lazy α) : Option α := cell.owned.or cell.shared

def isLoaded (cell : Lazy α) : Bool := cell.peek.isSome

def insert (cell : Lazy α) (value : α) : Lazy α := { cell with owned := some value, shared := none }

/-- Puts back a value that was taken out of the cell, into the place it came from. -/
def putBack (value : α) (cell : Lazy α) : Lazy α :=
  if cell.owned.isSome then { cell with owned := some value }
    else { cell with shared := some value }

/-- A value that was put back is the one that the cell has. -/
@[simp] theorem peek_putBack (cell : Lazy α) (value : α) :
    (putBack value cell).peek = some value := by
  cases h : cell.owned <;> simp [putBack, peek, h]

/-- The value, loaded on first use. If the load itself has filled the cell, that value stays. -/
def getOrLoad (load : Option Origin → Access σ (Lazy α) α) : Access σ (Lazy α) α := do
  let (cell, _) ← get
  match cell.peek with
  | some value => return value
  | none =>
    let value ← load cell.origin
    modifyGet fun (cell, around) =>
      match cell.shared with
      | some earlier => (earlier, (cell, around))
      | none => (value, ({ cell with shared := some value }, around))

def getMutOrLoad (load : Option Origin → EStateM Error σ α) : Access σ (Lazy α) α := do
  let (cell, _) ← get
  match cell.owned with
  | some value => return value
  | none =>
    let value ← match cell.shared with
      | some value => pure value
      | none => Access.lift (load cell.origin)
    modifyGet fun (cell, around) =>
      (value, ({ cell with owned := some value, shared := none }, around))

/-- Runs an access on a value that has been got from the cell. -/
def onValue (value : α) (access : Access σ α β) : Access σ (Lazy α) β :=
  Access.within (fun _ => value) putBack access

def access (load : Option Origin → EStateM Error σ α) (inner : Access σ α β) :
    Access σ (Lazy α) β := do
  onValue (← getOrLoad fun origin => Access.lift (load origin)) inner

def accessMut (load : Option Origin → EStateM Error σ α) (inner : Access σ α β) :
    Access σ (Lazy α) β := do
  onValue (← getMutOrLoad load) inner

end Lazy
end FramedTree
