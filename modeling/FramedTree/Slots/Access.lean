import FramedTree.Access
import FramedTree.Slots.Basic

/-! # Access to slots

The values in slots are worked on in place, one of them or all of them in slot order.
-/

namespace FramedTree.Slots

variable {σ α β : Type}

/-- Works on the value in slot `i`; gives nothing if there is none. -/
def access (i : Nat) (inner : Access σ α β) : Access σ (Slots α) (Option β) :=
  fun (slots, around) =>
    match slots.get? i with
    | none => .ok none (slots, around)
    | some value =>
      match inner (value, around) with
      | .ok result (value, around) => .ok (some result) (slots.modify i fun _ => value, around)
      | .error error (value, around) => .error error (slots.modify i fun _ => value, around)

/-- Works on every value of a row of cells, the first of which has number `i`, up to the first
failure. -/
def accessFrom (inner : Nat → Access σ α β) :
    (i : Nat) → (cells : List (Option α)) → (around : σ) →
      EStateM.Result Error (List (Option α) × σ) (List β)
  | _, [], around => .ok [] ([], around)
  | i, none :: cells, around =>
    match accessFrom inner (i + 1) cells around with
    | .ok results (cells, around) => .ok results (none :: cells, around)
    | .error error (cells, around) => .error error (none :: cells, around)
  | i, some value :: cells, around =>
    match inner i (value, around) with
    | .error error (value, around) => .error error (some value :: cells, around)
    | .ok result (value, around) =>
      match accessFrom inner (i + 1) cells around with
      | .ok results (cells, around) => .ok (result :: results) (some value :: cells, around)
      | .error error (cells, around) => .error error (some value :: cells, around)

/-- Works on every value in slot order, up to the first failure. -/
def accessAll (inner : Nat → Access σ α β) : Access σ (Slots α) (List β) :=
  Access.within (·.cells.toList) (fun cells _ => ⟨cells.toArray⟩)
    fun (cells, around) => accessFrom inner 0 cells around

end FramedTree.Slots
