import FramedTree.Header.Descriptor

/-! # Entry headers

An entry stores where the frames of its identities start, and the addresses of the identities it
refers to. The identification is always there, and position 0 is what a missing field stands for.
-/

namespace FramedTree

structure EntryHeader where
  identification : UInt64 := 0
  secretIdentity : Option UInt64 := none
  approver : Option Descriptor := none
  reviewers : List Descriptor := []
  deriving DecidableEq, Repr

namespace EntryHeader

/-- Takes one field into a draft. A second approver adds its coordinates to the first; every
reviewer is one of its own. -/
def mergeField (budget : Nat) (key : Key) (header : EntryHeader) : Reader EntryHeader :=
  match key.tag with
  | 1 => Reader.within "DataHeader" "identification" do
    return { header with identification := ← Field.readWord key.wire }
  | 2 => Reader.within "DataHeader" "secret_identity" do
    return { header with secretIdentity := some (← Field.readWord key.wire) }
  | 3 => Reader.within "DataHeader" "approver" do
    let sofar := header.approver.getD Message.unset
    return { header with approver := some (← Message.mergeNested budget key.wire sofar) }
  | 4 => Reader.within "DataHeader" "reviewers" do
    let reviewer ← Message.mergeNested budget key.wire Message.unset
    return { header with reviewers := reviewer :: header.reviewers }
  | _ => do
    Field.skip budget key
    return header

/-- The header with its reviewers, and the coordinates of all addresses, in order. -/
def settle (draft : EntryHeader) : EntryHeader :=
  { draft with
    approver := draft.approver.map Descriptor.settle
    reviewers := (draft.reviewers.map Descriptor.settle).reverse }

/-- The wire form: the identification unless it is 0, then the other fields that are set. -/
def encode (header : EntryHeader) : Bytes :=
  (if header.identification = 0 then [] else Field.encodeWord 1 header.identification) ++
    (header.secretIdentity.elim [] fun position => Field.encodeWord 2 position) ++
    (header.approver.elim [] fun approver => Field.encodeDelimited 3 (Message.encode approver)) ++
    header.reviewers.flatMap fun reviewer => Field.encodeDelimited 4 (Message.encode reviewer)

def encodedLen (header : EntryHeader) : Nat :=
  (if header.identification = 0 then 0 else Field.wordSize 1 header.identification) +
    (header.secretIdentity.elim 0 fun position => Field.wordSize 2 position) +
    (header.approver.elim 0 fun approver =>
      Field.delimitedSize 3 (Message.encodedLen approver)) +
    header.reviewers.foldr (fun reviewer total =>
      Field.delimitedSize 4 (Message.encodedLen reviewer) + total) 0

instance : Message EntryHeader where
  unset := {}
  encode := encode
  encodedLen := encodedLen
  mergeField := mergeField
  settle := settle

end EntryHeader
end FramedTree
