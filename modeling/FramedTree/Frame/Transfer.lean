import FramedTree.Frame.Basic
import FramedTree.Stream.Transfer

/-! # Frames in streams

A nested frame is read where the handle stands, or at a position that a parent recorded. The root
frame is read from the end: the trailer gives the length, the length gives the start. The payload
that is decoded has the length in front of it.
-/

namespace FramedTree

/-- An activity of a codec on a handle. -/
abbrev FrameIO := EStateM Error Handle

/-- A transfer whose failure is a failure of the codec. -/
def Transfer.toFrameIO {α : Type} (transfer : Transfer α) : FrameIO α :=
  EStateM.adaptExcept Error.io transfer

def FrameIO.ofExcept {α : Type} : Except Error α → FrameIO α
  | .ok value => return value
  | .error error => throw error

def MalformedFrame.raise {α : Type} (cause : MalformedFrame) : FrameIO α :=
  throw (.malformed cause)

namespace Frame

/-- Writes a message as one frame and gives the frame's size. A message that cannot be encoded does
not reach the stream. -/
def write {α : Type} [Message α] (codec : Codec) (kind : FrameKind) (value : α) : FrameIO Nat := do
  let frame ← FrameIO.ofExcept (encode codec kind value)
  (Handle.writeAll frame).toFrameIO
  return frame.length

/-- Reads one byte of a length; the end of the stream cuts the length off. -/
def readLengthByte : FrameIO UInt8 := fun handle =>
  match Handle.readExactly 1 handle with
  | .ok data handle => .ok (data.headD 0) handle
  | .error error handle =>
    if error.kind = .unexpectedEof then .error (.malformed .truncatedVarint) handle
    else .error (.io error) handle

/-- Reads the bytes of a varint of at most `left` bytes, up to the one that ends it. -/
def readLengthBytes : (left : Nat) → FrameIO Bytes
  | 0 => MalformedFrame.varintOverflow.raise
  | left + 1 => do
    let byte ← readLengthByte
    if byte.toNat < 128 then return [byte]
    return byte :: (← readLengthBytes left)

/-- Reads the length in front of a payload, which has to fit 32 bits. -/
def readLength : FrameIO Nat := do
  let bytes ← readLengthBytes Varint.maxSize
  match Varint.decode bytes with
  | some (length, _) =>
    if length < UInt32.size then return length else MalformedFrame.varintOverflow.raise
  | none => MalformedFrame.varintOverflow.raise

/-- Reads a payload of the given length and decodes it. -/
def readPayload {α : Type} [Message α] (codec : Codec) (length : Nat) : FrameIO α := do
  if codec.maxFrameLen.toNat < length then
    MalformedFrame.raise (.frameTooLarge length codec.maxFrameLen.toNat)
  let payload ← (Handle.readUpTo length).toFrameIO
  if payload.length < length then
    MalformedFrame.raise (.truncatedPayload length payload.length)
  match Message.decode payload with
  | .ok value => return value
  | .error error => throw (.decode error)

/-- Reads the frame that starts where the handle stands. -/
def readNested {α : Type} [Message α] (codec : Codec) : FrameIO α := do
  readPayload codec (← readLength)

def readAt {α : Type} [Message α] (codec : Codec) (position : Nat) : FrameIO α := do
  discard (Handle.seek (.start position)).toFrameIO
  readNested codec

/-- Puts the handle at the start of the root frame and gives the length in the trailer. -/
def seekRoot : FrameIO Nat := do
  let streamLen ← (Handle.seek (.fromEnd 0)).toFrameIO
  if streamLen < minimumRootSize then
    MalformedFrame.raise (.streamTooShort streamLen minimumRootSize)
  discard (Handle.seek (.fromEnd trailerSize)).toFrameIO
  let trailer := Bytes.toNat (← (Handle.readExactly trailerSize).toFrameIO)
  if streamLen < size trailer .root then
    MalformedFrame.raise (.trailerOutOfRange trailer streamLen)
  discard (Handle.seek (.start (streamLen - size trailer .root))).toFrameIO
  return trailer

def readRoot {α : Type} [Message α] (codec : Codec) : FrameIO α := do
  let trailer ← seekRoot
  let length ← readLength
  if codec.verifyTrailer && length != trailer then
    MalformedFrame.raise (.trailerMismatch trailer length)
  readPayload codec length

def read {α : Type} [Message α] (codec : Codec) : FrameKind → FrameIO α
  | .nested => readNested codec
  | .root => readRoot codec

end Frame
end FramedTree
