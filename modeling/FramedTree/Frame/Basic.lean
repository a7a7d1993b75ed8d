import FramedTree.Codec
import FramedTree.Error

/-! # Frames

A frame is a payload behind the varint of its length. The frame at the end of a stream, the root
frame, also has the length behind it, as a 32-bit little-endian trailer, so that a reader finds its
start from the end.
-/

namespace FramedTree

/-- Whether a frame is found by its position or from the end of the stream. -/
inductive FrameKind where
  | nested
  | root
  deriving DecidableEq, Repr

namespace Frame

def trailerSize : Nat := 4

def minimumRootSize : Nat := trailerSize + 1

def trailer (kind : FrameKind) (length : Nat) : Bytes :=
  match kind with
  | .nested => []
  | .root => Bytes.ofWord32 length.toUInt32

/-- Size of a frame whose payload has the given length. -/
def size (length : Nat) (kind : FrameKind) : Nat :=
  Varint.size length + length + match kind with
    | .nested => 0
    | .root => trailerSize

/-- The frame that announces `length` bytes and holds `payload`. -/
def wrap (codec : Codec) (kind : FrameKind) (length : Nat) (payload : Bytes) : Except Error Bytes :=
  if codec.maxFrameLen.toNat < length then
    .error (.malformed (.frameTooLarge length codec.maxFrameLen.toNat))
  else .ok (Varint.encode length ++ payload ++ trailer kind length)

def encode {α : Type} [Message α] (codec : Codec) (kind : FrameKind) (value : α) :
    Except Error Bytes :=
  wrap codec kind (Message.encodedLen value) (Message.encode value)

end Frame
end FramedTree
