import FramedTree.Error
import FramedTree.Path

/-! # Stamps and references

Every node is stamped when it is made, with the root of its tree and its path, and keeps its stamp.
A reference names a node by the same two things. A node takes a reference only to nodes of its own
tree.
-/

namespace FramedTree

/-- The root numbers that have been given out: all from 1 to `issued`. -/
structure Roots where
  issued : Nat := 0
  deriving DecidableEq, Repr, Inhabited

/-- Gives out the next root number. The numbers are taken to stay below `2 ^ 64`, where a counter of
one machine word would start anew; that is not checked. -/
def Roots.mint (roots : Roots) : RootId × Roots := (⟨roots.issued + 1⟩, ⟨roots.issued + 1⟩)

/-- Identity of a node. -/
structure Stamp where
  root : RootId
  path : Path := {}
  deriving DecidableEq, Repr, Inhabited

def Stamp.child (stamp : Stamp) (field : UInt32) (index : UInt64) : Stamp :=
  { stamp with path := stamp.path.child field index }

/-- Names a node without holding it. -/
structure NodeRef where
  root : RootId
  path : Path
  deriving DecidableEq, Repr, Inhabited

def Stamp.toRef (stamp : Stamp) : NodeRef := ⟨stamp.root, stamp.path⟩

namespace NodeRef

/-- The reference that a wire form stands for in the tree of `root`. -/
def ofDescriptor (root : RootId) (descriptor : Descriptor) : NodeRef :=
  ⟨root, Path.ofDescriptor descriptor⟩

def descriptor (ref : NodeRef) : Descriptor := ref.path.toDescriptor

/-- Whether two references name the same place, in whatever trees. -/
def sameTarget (ref other : NodeRef) : Bool := ref.path == other.path

def describe (ref : NodeRef) : String :=
  "NodeRef \x7b root: RootId(" ++ toString ref.root.number ++ "), path: [" ++
    ", ".intercalate (ref.path.coordinates.map fun n => toString n.toNat) ++ "] \x7d"

end NodeRef

/-- Fails unless both roots are the same. -/
def ensureSameRoot (expected found : RootId) : Except Error Unit :=
  if expected = found then .ok () else .error (.ownership expected found)

/-- The reference that a node of the tree `parent` may keep. -/
def attach (parent : RootId) (ref : NodeRef) : Except Error NodeRef := do
  ensureSameRoot parent ref.root
  return ref

end FramedTree
