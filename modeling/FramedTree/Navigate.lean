import FramedTree.Ownership

/-! # Following references

A reference is followed from the root, one step after another, by a look-up that says which child of
a node stands under a field number and an index. The look-up may have effects, such as loading the
child.
-/

namespace FramedTree

variable {m : Type → Type} [Monad m] {ν τ : Type}

/-- Goes from `node` along `steps`. A field number of more than 32 bits leads nowhere. -/
def walk (child : ν → UInt32 → UInt64 → m (Option ν)) :
    (steps : List (UInt64 × UInt64)) → (node : ν) → m (Option ν)
  | [], node => return some node
  | (field, index) :: rest, node =>
    if field.toNat < UInt32.size then do
      match ← child node field.toUInt32 index with
      | some next => walk child rest next
      | none => return none
    else return none

/-- Follows a reference in the tree of `root`. A reference into another tree is refused; one that
leads nowhere, or to a node that `view` does not take, gives nothing. -/
def resolve [MonadExcept Error m] (root : RootId) (child : ν → UInt32 → UInt64 → m (Option ν))
    (view : ν → m (Option τ)) (start : ν) (target : NodeRef) : m (Option τ) := do
  match ensureSameRoot root target.root with
  | .error error => throw error
  | .ok () =>
    match ← walk child target.path.steps start with
    | some node => view node
    | none => return none

end FramedTree
