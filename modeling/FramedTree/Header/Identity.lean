import FramedTree.Wire.Message

/-! # Identity headers

A person's record on the wire: a given name and a year of birth, both of which may be missing.
-/

namespace FramedTree

structure IdentityHeader where
  firstName : Option String := none
  birthYear : Option Int32 := none
  deriving DecidableEq, Repr

namespace IdentityHeader

/-- A year as a 64-bit word; a negative one is sign-extended. -/
def yearToWord (year : Int32) : UInt64 := year.toInt64.toUInt64

def yearOfWord (word : UInt64) : Int32 := word.toUInt32.toInt32

def textBytes (text : String) : Bytes := text.toByteArray.data.toList

/-- Takes one field into a draft. A later value of a field replaces an earlier one. -/
def mergeField (budget : Nat) (key : Key) (header : IdentityHeader) : Reader IdentityHeader :=
  match key.tag with
  | 1 => Reader.within "IdentityHeader" "first_name" do
    return { header with firstName := some (← Field.readText key.wire) }
  | 2 => Reader.within "IdentityHeader" "birth_year" do
    return { header with birthYear := some (yearOfWord (← Field.readWord key.wire)) }
  | _ => do
    Field.skip budget key
    return header

/-- The wire form: fields that are set, in order, also when they are empty or zero. -/
def encode (header : IdentityHeader) : Bytes :=
  (header.firstName.elim [] fun name => Field.encodeDelimited 1 (textBytes name)) ++
    header.birthYear.elim [] fun year => Field.encodeWord 2 (yearToWord year)

def encodedLen (header : IdentityHeader) : Nat :=
  (header.firstName.elim 0 fun name => Field.delimitedSize 1 name.utf8ByteSize) +
    header.birthYear.elim 0 fun year => Field.wordSize 2 (yearToWord year)

instance : Message IdentityHeader where
  unset := {}
  encode := encode
  encodedLen := encodedLen
  mergeField := mergeField
  settle := id

end IdentityHeader
end FramedTree
