import FramedTree.Wire.Field

/-! # Messages

A message type knows its wire form and how to take in one field of a payload. A payload is a plain
sequence of fields: decoding starts from the unset message and takes in one field after another.
Until all fields are in, the message is a draft: its lists grow at the front, so that their last
item comes first.
-/

namespace FramedTree

/-- A type of messages with a wire form. -/
class Message (α : Type) where
  /-- The message with every field unset. -/
  unset : α
  /-- The wire form. -/
  encode : α → Bytes
  /-- Length of the wire form, found without building it. -/
  encodedLen : α → Nat
  /-- Takes the field behind `key` into a draft, with the given nesting budget. -/
  mergeField : (budget : Nat) → (key : Key) → α → Reader α
  /-- The message that a draft stands for: its lists in order. -/
  settle : α → α

structure EncodeError where
  required : Nat
  remaining : Nat
  deriving DecidableEq, Repr

def EncodeError.message (e : EncodeError) : String :=
  "failed to encode Protobuf message; insufficient buffer capacity (required: " ++
    s!"{e.required}, remaining: {e.remaining})"

namespace Message

variable {α : Type} [Message α]

/-- Takes one key and the field behind it into a draft. -/
def mergeNext (budget : Nat) (value : α) : Reader α := do
  let key ← Key.read
  mergeField budget key value

/-- The message a payload holds. -/
def decode (payload : Bytes) : Except DecodeError α :=
  let draft := Field.repeatUntil 0 (mergeNext Field.nestingBudget) payload.length unset
  (settle <$> draft).run' (.ofBytes payload)

/-- Takes in a message that is the value of a field: it adds to the draft `value`, and nests one
level deeper. -/
def mergeNested (budget : Nat) (wire : WireType) (value : α) : Reader α := do
  Field.expect .lengthDelimited wire
  match budget with
  | 0 => DecodeFault.recursionLimit.raise
  | budget + 1 => Field.readDelimited (mergeNext budget) value

/-- The wire form in a zeroed buffer of `capacity` bytes. -/
def encodeInto (capacity : Nat) (value : α) : Except EncodeError Bytes :=
  if capacity < encodedLen value then .error ⟨encodedLen value, capacity⟩
  else .ok (encode value ++ List.replicate (capacity - encodedLen value) 0)

end Message
end FramedTree
