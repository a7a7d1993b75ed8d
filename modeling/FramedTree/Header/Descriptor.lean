import FramedTree.Wire.Message

/-! # Node addresses on the wire

A reference to a node is stored as the node's coordinates: field number and index in turn, from the
root down. Nothing on the wire keeps a list from having an odd length.
-/

namespace FramedTree

/-- Wire form of a node's address. -/
structure Descriptor where
  coordinates : List UInt64 := []
  deriving DecidableEq, Repr

namespace Descriptor

def mergeField (budget : Nat) (key : Key) (header : Descriptor) : Reader Descriptor :=
  match key.tag with
  | 1 => Reader.within "LocalMessageDescriptor" "coordinate" do
    return ⟨← Field.readWords key.wire header.coordinates⟩
  | _ => do
    Field.skip budget key
    return header

def settle (draft : Descriptor) : Descriptor := ⟨draft.coordinates.reverse⟩

instance : Message Descriptor where
  unset := {}
  encode header := Field.encodeWords 1 header.coordinates
  encodedLen header := Field.wordsSize 1 header.coordinates
  mergeField := mergeField
  settle := settle

end Descriptor
end FramedTree
