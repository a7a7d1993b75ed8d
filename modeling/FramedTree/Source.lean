import FramedTree.Stream.Streams

/-! # Content sources

A source is what the nodes of an opened tree are read from: a shared stream, or a private copy of
one that never changes. Every read seeks to its frame first, so that a source has no position of its
own.
-/

namespace FramedTree

/-- Where the bytes of a source are. -/
inductive Backing where
  | stream (id : StreamId)
  | copy (content : Array UInt8)
  deriving DecidableEq, Repr

/-- A readable stream together with the codec for its frames. -/
structure Source where
  backing : Backing
  codec : Codec := {}
  /-- Whether a read is under way. -/
  isReading : Bool := false
  deriving DecidableEq, Repr

/-- The place of a stored node. -/
structure Origin where
  source : Source
  position : UInt64
  deriving DecidableEq, Repr

/-- An activity that reads sources. -/
abbrev Load := EStateM Error Streams

namespace Source

/-- Runs an activity on the source's stream. A source that is being read takes no second read. -/
def withHandle {α : Type} (source : Source) (activity : FrameIO α) : Load α :=
  if source.isReading then throw (.io .busy)
  else match source.backing with
    | .stream id => Streams.withHandle id 0 activity
    | .copy content => fun streams =>
      match activity { stream := { content } } with
      | .ok value _ => .ok value streams
      | .error error _ => .error error streams

def readRoot {α : Type} [Message α] (source : Source) : Load α :=
  source.withHandle (Frame.readRoot source.codec)

def readAt {α : Type} [Message α] (source : Source) (position : Nat) : Load α :=
  source.withHandle (Frame.readAt source.codec position)

def describe (source : Source) : String :=
  "ContentSource \x7b codec: FrameCodec \x7b config: " ++ source.codec.describe ++ " \x7d, .. \x7d"

end Source

def Origin.read {α : Type} [Message α] (origin : Origin) : Load α :=
  origin.source.readAt origin.position.toNat

end FramedTree
