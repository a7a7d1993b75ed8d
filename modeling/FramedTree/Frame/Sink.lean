import FramedTree.Frame.Transfer

/-! # Sinks

A sink writes the frames of a tree one behind the other, children first and the root frame last, and
keeps count of where each one starts. The count moves on when a frame has been written; a write that
fails part of the way leaves the count where it was.
-/

namespace FramedTree

/-- The bookkeeping of a sink. -/
structure Sink where
  codec : Codec
  /-- Where the first frame starts. -/
  start : Nat
  /-- Where the next frame starts. -/
  position : Nat
  /-- Frames written so far. -/
  frames : Nat := 0
  deriving DecidableEq, Repr

/-- An activity of a sink on a handle. -/
abbrev SinkIO := EStateM Error (Sink × Handle)

namespace Sink

/-- A sink for a handle that is known to stand at `position`. -/
def startingAt (codec : Codec) (position : Nat) : Sink :=
  { codec, start := position, position }

def atEnd (codec : Codec) : FrameIO Sink := do
  return startingAt codec (← (Handle.seek (.fromEnd 0)).toFrameIO)

/-- Writes a message as the next frame and gives the position at which the frame starts. -/
def write {α : Type} [Message α] (kind : FrameKind) (value : α) : SinkIO Nat :=
  fun (sink, handle) =>
  match Frame.write sink.codec kind value handle with
  | .ok size handle =>
    .ok sink.position
      ({ sink with position := sink.position + size, frames := sink.frames + 1 }, handle)
  | .error error handle => .error error (sink, handle)

def flush : SinkIO Unit := fun (sink, handle) =>
  match Handle.flush handle with
  | .ok _ handle => .ok () (sink, handle)
  | .error error handle => .error (.io error) (sink, handle)

/-- Writes the root frame and gives the number of bytes that went through the sink. -/
def finish {α : Type} [Message α] (root : α) : SinkIO Nat := do
  discard (write .root root)
  flush
  let (sink, _) ← get
  return sink.position - sink.start

end Sink
end FramedTree
