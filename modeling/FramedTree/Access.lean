import FramedTree.Error

/-! # Access to nodes

Looking at a node may load parts of it, and loading may fail. An access runs on a node and on what
surrounds it, such as the streams. What was loaded before a failure stays loaded.
-/

namespace FramedTree

/-- An activity on a node of type `ν` in surroundings of type `σ`. -/
abbrev Access (σ ν : Type) := EStateM Error (ν × σ)

namespace Access

variable {σ τ ν μ α : Type}

/-- An activity that leaves the node alone. -/
def lift (activity : EStateM Error σ α) : Access σ ν α := fun (node, around) =>
  match activity around with
  | .ok value around => .ok value (node, around)
  | .error error around => .error error (node, around)

/-- An access to the part of a node that `get` takes out and `put` puts back. -/
def within (get : ν → μ) (put : μ → ν → ν) (access : Access σ μ α) : Access σ ν α :=
  fun (node, around) =>
    match access (get node, around) with
    | .ok value (part, around) => .ok value (put part node, around)
    | .error error (part, around) => .error error (put part node, around)

/-- An access in wider surroundings, of which it sees the part that `get` takes out and `put` puts
back. -/
def around (get : τ → σ) (put : σ → τ → τ) (access : Access σ ν α) : Access τ ν α :=
  fun (node, whole) =>
    match access (node, get whole) with
    | .ok value (node, part) => .ok value (node, put part whole)
    | .error error (node, part) => .error error (node, put part whole)

/-- The node itself. -/
def node : Access σ ν ν := do return (← get).1

def edit (f : ν → ν) : Access σ ν Unit := modify fun (node, around) => (f node, around)

/-- Turns a failure into a value. -/
def attempt (access : Access σ ν α) : Access σ ν (Except Error α) := fun state =>
  match access state with
  | .ok value state => .ok (.ok value) state
  | .error error state => .ok (.error error) state

end Access
end FramedTree
