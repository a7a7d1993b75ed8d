import FramedTree.Header.Descriptor

/-! # Paths

A path says where a node is in its tree: a field number and an index for every step from the root
down. It is kept flat, as it is stored. A number left over at the end belongs to no step.
-/

namespace FramedTree

/-- Place of a node in its tree. -/
structure Path where
  coordinates : List UInt64 := []
  deriving DecidableEq, Repr, Inhabited

namespace Path

def root : Path := {}

def child (path : Path) (field : UInt32) (index : UInt64) : Path :=
  ⟨path.coordinates ++ [field.toUInt64, index]⟩

def isRoot (path : Path) : Bool := path.coordinates.isEmpty

/-- Number of whole steps. -/
def depth (path : Path) : Nat := path.coordinates.length / 2

/-- Takes a flat list two by two. -/
def pairs : List UInt64 → List (UInt64 × UInt64)
  | field :: index :: rest => (field, index) :: pairs rest
  | _ => []

def steps (path : Path) : List (UInt64 × UInt64) := pairs path.coordinates

/-- The path as text: `/` for the root, else `/field:index` for every step. -/
def text (path : Path) : String :=
  if path.isRoot then "/"
  else String.join (path.steps.map fun (field, index) => s!"/{field.toNat}:{index.toNat}")

def toDescriptor (path : Path) : Descriptor := ⟨path.coordinates⟩

def ofDescriptor (descriptor : Descriptor) : Path := ⟨descriptor.coordinates⟩

end Path
end FramedTree
