import FramedTree.Root
import FramedTree.Wire.Message

/-! # Failures

Every failure is a value that names its cause. Four classes matter to callers: the stream failed,
the frame is malformed, the payload does not fit its schema, or a node belongs to another tree. All
wording is in the `message` functions of this module and of the errors it wraps.
-/

namespace FramedTree

inductive IoKind where
  | interrupted
  | wouldBlock
  | timedOut
  | brokenPipe
  | unsupported
  | unexpectedEof
  | notFound
  | permissionDenied
  | invalidData
  | other
  | writeZero
  | resourceBusy
  deriving DecidableEq, Repr

/-- A stream failure: its kind, and a text that comes from the stream. -/
structure IoError where
  kind : IoKind
  message : String
  deriving DecidableEq, Repr

namespace IoError

def endOfStream : IoError := ⟨.unexpectedEof, "failed to fill whole buffer"⟩

def nothingWritten : IoError := ⟨.writeZero, "failed to write whole buffer"⟩

def interruption : IoError := ⟨.interrupted, "operation interrupted"⟩

def busy : IoError := ⟨.resourceBusy, "content source is already being read"⟩

/-- Whether the same call may succeed when it is made again. -/
def isTransient (e : IoError) : Bool :=
  match e.kind with
  | .interrupted | .wouldBlock | .timedOut => true
  | _ => false

end IoError

/-- Ways in which a frame is malformed. -/
inductive MalformedFrame where
  | truncatedVarint
  | varintOverflow
  | truncatedPayload (expected actual : Nat)
  | streamTooShort (len minimum : Nat)
  | trailerOutOfRange (trailer streamLen : Nat)
  | trailerMismatch (trailer announced : Nat)
  | frameTooLarge (len max : Nat)
  deriving DecidableEq, Repr

def MalformedFrame.message : MalformedFrame → String
  | truncatedVarint => "truncated varint length prefix"
  | varintOverflow => "varint length prefix overflows u32"
  | truncatedPayload expected actual =>
    s!"truncated payload: expected {expected} bytes, got {actual}"
  | streamTooShort len minimum =>
    s!"stream too short for a root frame: {len} bytes, minimum {minimum}"
  | trailerOutOfRange trailer streamLen =>
    s!"root trailer announces {trailer} bytes but stream holds {streamLen}"
  | trailerMismatch trailer announced =>
    s!"root trailer announces {trailer} bytes but " ++ s!"prefix announces {announced}"
  | frameTooLarge len max => s!"frame of {len} bytes exceeds limit of {max}"

/-- What callers branch on. -/
inductive ErrorClass where
  | io
  | malformedFrame
  | schemaViolation
  | ownershipViolation
  deriving DecidableEq, Repr

/-- Any failure of reading, writing or linking nodes. -/
inductive Error where
  | io (cause : IoError)
  | malformed (cause : MalformedFrame)
  | decode (cause : DecodeError)
  | encode (cause : EncodeError)
  | ownership (expected found : RootId)
  deriving DecidableEq, Repr

namespace Error

def errorClass : Error → ErrorClass
  | io _ => .io
  | malformed _ => .malformedFrame
  | decode _ | encode _ => .schemaViolation
  | ownership _ _ => .ownershipViolation

def message : Error → String
  | io cause => "[PZ_IO] " ++ cause.message
  | malformed cause => "[PZ_MALFORMED_FRAME] " ++ cause.message
  | decode cause => "[PZ_SCHEMA] payload does not decode: " ++ cause.message
  | encode cause => "[PZ_SCHEMA] message does not encode: " ++ cause.message
  | ownership expected found =>
    s!"[PZ_OWNERSHIP] node owned by {found.text} cannot be attached under {expected.text}"

/-- Whether the same call may succeed when it is made again. -/
def isTransient : Error → Bool
  | io cause => cause.isTransient
  | _ => false

def source : Error → Option String
  | io cause => some cause.message
  | malformed cause => some cause.message
  | decode cause => some cause.message
  | encode cause => some cause.message
  | ownership _ _ => none

end Error
end FramedTree
