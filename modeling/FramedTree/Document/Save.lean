import FramedTree.Document.Basic
import FramedTree.Frame.Sink

/-! # Saving documents

A document is saved at the end of a stream, children first: for each entry its identification, its
secret identity and its header, and the document's header last, as the root frame. Each header
records where the frames of its children start. What has not been loaded yet is loaded on the way,
which may be from the very stream that is written to.
-/

namespace FramedTree

/-- The surroundings of a tree that is being saved. -/
structure Output where
  streams : Streams
  /-- The stream that is written to. -/
  target : StreamId
  /-- Where the handle on that stream stands. -/
  position : Nat
  sink : Sink

namespace Output

def emit {α : Type} (activity : SinkIO α) : EStateM Error Output α := fun output =>
  let update (sink : Sink) (handle : Handle) : Output :=
    { output with
      streams := output.streams.set output.target handle.stream
      position := handle.position
      sink }
  match activity (output.sink, ⟨output.streams.get output.target, output.position⟩) with
  | .ok value (sink, handle) => .ok value (update sink handle)
  | .error error (sink, handle) => .error error (update sink handle)

def loading {ν α : Type} (access : Access Streams ν α) : Access Output ν α :=
  Access.around streams (fun streams output => { output with streams }) access

/-- Writes a header as a nested frame and gives its position. -/
def write {ν α : Type} [Message α] (header : α) : Access Output ν Nat :=
  Access.lift (emit (Sink.write .nested header))

end Output

/-- Writes the frames of an entry and gives the position of the last, its header. -/
def Entry.save : Access Output Entry Nat := do
  let identity ← Output.loading (onIdentification Access.node)
  let identification ← Output.write identity.header
  let secret ← Output.loading (onSecretIdentity Access.node)
  let secretIdentity ← secret.mapM fun identity => Output.write identity.header
  let entry ← Access.node
  Output.write (entry.toHeader identification secretIdentity)

namespace Document

/-- Writes the frames of all entries and gives the positions of their headers. -/
def saveEntries : Access Output Document (List Nat) :=
  onCells fun stamp i => do
    let entry ← Output.loading (Lazy.getOrLoad fun origin => Access.lift (loadEntry stamp i origin))
    Lazy.onValue entry Entry.save

/-- Writes the whole tree through a sink that is ready. -/
def saveAll : Access Output Document Nat := do
  let positions ← saveEntries
  Access.lift (Output.emit (Sink.finish (⟨positions.map Nat.toUInt64⟩ : DocumentHeader)))

/-- Saves the document at the end of a stream, through a handle that stands at `position`, and gives
the number of bytes written. -/
def save (codec : Codec) (target : StreamId) (position : Nat := 0) : Access Streams Document Nat :=
  fun (document, streams) =>
    match Sink.atEnd codec ⟨streams.get target, position⟩ with
    | .error error handle => .error error (document, streams.set target handle.stream)
    | .ok sink handle =>
      let streams := streams.set target handle.stream
      match saveAll (document, { streams, target, position := handle.position, sink }) with
      | .ok size (document, output) => .ok size (document, output.streams)
      | .error error (document, output) => .error error (document, output.streams)

/-- The saved form of the document as a byte string of its own. -/
def saveToBytes (codec : Codec) : Access Streams Document Bytes := fun (document, streams) =>
  match save codec .scratch 0 (document, { streams with scratch := {} }) with
  | .ok _ (document, streams) =>
    .ok streams.scratch.bytes (document, { streams with scratch := {} })
  | .error error (document, streams) => .error error (document, { streams with scratch := {} })

end Document
end FramedTree
