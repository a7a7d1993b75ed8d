import FramedTree.Wire.Input

/-! # Reasons why a payload is not a message

A fault is one of a fixed list of causes, together with the fields of known messages in which it
lies, innermost first. The wording of every cause is in `DecodeFault.message`.
-/

namespace FramedTree

/-- How the value of a field is laid out. -/
inductive WireType where
  | varint
  | sixtyFourBit
  | lengthDelimited
  | startGroup
  | endGroup
  | thirtyTwoBit
  deriving DecidableEq, Repr, Inhabited

namespace WireType

def code : WireType → Nat
  | varint => 0
  | sixtyFourBit => 1
  | lengthDelimited => 2
  | startGroup => 3
  | endGroup => 4
  | thirtyTwoBit => 5

/-- The layout with the given number; 6 and 7 stand for none. -/
def ofCode? : Nat → Option WireType
  | 0 => some varint
  | 1 => some sixtyFourBit
  | 2 => some lengthDelimited
  | 3 => some startGroup
  | 4 => some endGroup
  | 5 => some thirtyTwoBit
  | _ => none

@[simp] theorem ofCode?_code (w : WireType) : ofCode? w.code = some w := by cases w <;> rfl

def label : WireType → String
  | varint => "Varint"
  | sixtyFourBit => "SixtyFourBit"
  | lengthDelimited => "LengthDelimited"
  | startGroup => "StartGroup"
  | endGroup => "EndGroup"
  | thirtyTwoBit => "ThirtyTwoBit"

end WireType

inductive DecodeFault where
  | invalidVarint
  | invalidKey (key : Nat)
  | invalidWireType (code : Nat)
  | invalidTag
  | unexpectedWireType (found expected : WireType)
  | underflow
  | lengthExceeded
  | notUtf8
  | unexpectedEndGroup
  | recursionLimit
  deriving DecidableEq, Repr

def DecodeFault.message : DecodeFault → String
  | invalidVarint => "invalid varint"
  | invalidKey key => s!"invalid key value: {key}"
  | invalidWireType code => s!"invalid wire type value: {code}"
  | invalidTag => "invalid tag value: 0"
  | unexpectedWireType found expected =>
    s!"invalid wire type: {found.label} (expected {expected.label})"
  | underflow => "buffer underflow"
  | lengthExceeded => "delimited length exceeded"
  | notUtf8 => "invalid string value: data is not UTF-8 encoded"
  | unexpectedEndGroup => "unexpected end group tag"
  | recursionLimit => "recursion limit reached"

/-- A fault and the fields it lies in, each as its message's and its own name, innermost first. -/
structure DecodeError where
  fault : DecodeFault
  fields : List (String × String) := []
  deriving DecidableEq, Repr

namespace DecodeError

/-- Text of the error: the fields from the inside out, then the fault. -/
def message (e : DecodeError) : String :=
  "failed to decode Protobuf message: " ++
    String.join (e.fields.map fun (owner, field) => s!"{owner}.{field}: ") ++ e.fault.message

/-- The error, seen from around the field `field` of the message `owner`. -/
def within (owner field : String) (e : DecodeError) : DecodeError :=
  { e with fields := e.fields ++ [(owner, field)] }

end DecodeError

/-- A reader of part of a payload: it gives a value and the input behind it. -/
abbrev Reader := StateT Input (Except DecodeError)

def DecodeFault.raise {α : Type} (fault : DecodeFault) : Reader α :=
  fun _ => .error { fault }

/-- Reads with `read`, naming the field `field` of the message `owner` in what goes wrong. -/
def Reader.within {α : Type} (owner field : String) (read : Reader α) : Reader α :=
  fun input => (read input).mapError (·.within owner field)

end FramedTree
