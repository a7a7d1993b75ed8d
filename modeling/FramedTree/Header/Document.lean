import FramedTree.Wire.Message

/-! # Document headers

The root record of a document: where the frame of each entry starts, in order.
-/

namespace FramedTree

structure DocumentHeader where
  entries : List UInt64 := []
  deriving DecidableEq, Repr

namespace DocumentHeader

def mergeField (budget : Nat) (key : Key) (header : DocumentHeader) : Reader DocumentHeader :=
  match key.tag with
  | 1 => Reader.within "DocumentHeader" "data" do
    return ⟨← Field.readWords key.wire header.entries⟩
  | _ => do
    Field.skip budget key
    return header

def settle (draft : DocumentHeader) : DocumentHeader := ⟨draft.entries.reverse⟩

instance : Message DocumentHeader where
  unset := {}
  encode header := Field.encodeWords 1 header.entries
  encodedLen header := Field.wordsSize 1 header.entries
  mergeField := mergeField
  settle := settle

end DocumentHeader
end FramedTree
