import FramedTree.Header
import FramedTree.Workspace.Step

/-! # Sessions

A session is a workspace together with handles that a program keeps. A kept handle goes on from
where the operation before has left it, whatever came of it. A sink that is open on a handle writes
frames through it until it is finished.
-/

namespace FramedTree

/-- A handle that is kept: where it stands, and the sink that is open on it. -/
structure KeptHandle where
  stream : StreamId
  position : Nat := 0
  sink : Option Sink := none
  deriving DecidableEq, Repr

/-- A workspace, and the handles that are kept. -/
structure Session where
  workspace : Workspace := {}
  handles : Table String KeptHandle := {}
  deriving DecidableEq, Repr

inductive HandleOp where
  /-- Puts the handle at a position, without a seek. -/
  | moveTo (position : Nat)
  | write (codec : Codec) (kind : FrameKind) (message : Header)
  | read (codec : Codec) (frame : FrameKind) (kind : HeaderKind)
  | readAt (codec : Codec) (position : Nat) (kind : HeaderKind)
  /-- Opens a sink at the end of the stream. -/
  | openSink (codec : Codec)
  /-- Opens a sink for a handle that is known to stand at `start`. -/
  | startSink (codec : Codec) (start : Nat)
  | writeNested (message : Header)
  | finish (root : Header)
  | save (document : String) (codec : Codec)
  | readDocument (document : String) (codec : Codec)
  deriving DecidableEq, Repr

inductive SessionOp where
  | inWorkspace (op : Op)
  | openHandle (handle stream : String)
  | onHandle (handle : String) (op : HandleOp)
  deriving DecidableEq, Repr

inductive Reply where
  | nothing
  /-- The handle, its sink or the document is not there. -/
  | missing
  | size (n : Nat)
  | position (n : Nat)
  | message (header : Header)
  | answer (answer : Answer)
  deriving DecidableEq, Repr

def Reply.ofOption {α : Type} (f : α → Reply) : Option α → Reply
  | some value => f value
  | none => .missing

/-- An activity on a handle and the sink that may be open on it. -/
abbrev HandleIO := Access Handle (Option Sink)

namespace HandleIO

variable {α : Type}

def keepSink (activity : FrameIO Sink) : HandleIO Unit := do
  let sink ← Access.lift activity
  Access.edit fun _ => some sink

def onSink (activity : SinkIO α) : HandleIO (Option α) := do
  match ← Access.node with
  | some sink => some <$> Access.within (fun _ => sink) (fun sink _ => some sink) activity
  | none => return none

/-- Lets the open sink do its last; it is closed whatever comes of it. -/
def lastOnSink (activity : SinkIO α) : HandleIO (Option α) := do
  match ← Access.node with
  | some sink =>
    Access.edit fun _ => none
    some <$> Access.within (fun _ => sink) (fun _ closed => closed) activity
  | none => return none

end HandleIO

/-- Saves the document as `Document.save` does, and says where the handle stands afterwards. -/
def Document.saveThrough (codec : Codec) (target : StreamId) :
    Access (Streams × Nat) Document Nat :=
  fun (document, streams, position) =>
    match Sink.atEnd codec ⟨streams.get target, position⟩ with
    | .error error handle =>
      .error error (document, streams.set target handle.stream, handle.position)
    | .ok sink handle =>
      let streams := streams.set target handle.stream
      match saveAll (document, { streams, target, position := handle.position, sink }) with
      | .ok size (document, output) => .ok size (document, output.streams, output.position)
      | .error error (document, output) => .error error (document, output.streams, output.position)

/-- An activity on a kept handle, in a workspace. -/
abbrev KeptIO := Access Workspace KeptHandle

namespace KeptIO

variable {α : Type}

def onHandle (activity : HandleIO α) : KeptIO α := fun (kept, workspace) =>
  let update (sink : Option Sink) (handle : Handle) : KeptHandle × Workspace :=
    ({ kept with position := handle.position, sink },
      { workspace with streams := workspace.streams.set kept.stream handle.stream })
  match activity (kept.sink, ⟨workspace.streams.get kept.stream, kept.position⟩) with
  | .ok value (sink, handle) => .ok value (update sink handle)
  | .error error (sink, handle) => .error error (update sink handle)

def onStream (activity : FrameIO α) : KeptIO α := onHandle (Access.lift activity)

/-- Saves a document through the handle and gives the number of bytes written. -/
def save (document : String) (codec : Codec) : KeptIO (Option Nat) := fun (kept, workspace) =>
  match workspace.documents.find? document with
  | none => .ok none (kept, workspace)
  | some tree =>
    let update (tree : Document) (streams : Streams) (position : Nat) : KeptHandle × Workspace :=
      ({ kept with position },
        { workspace with streams, documents := workspace.documents.set document tree })
    match Document.saveThrough codec kept.stream (tree, workspace.streams, kept.position) with
    | .ok size (tree, streams, position) => .ok (some size) (update tree streams position)
    | .error error (tree, streams, position) => .error error (update tree streams position)

/-- Loads a whole document from a copy of what the handle's stream holds. -/
def readDocument (document : String) (codec : Codec) : KeptIO RootId := do
  let bytes ← onStream do
    discard (Handle.seek (.start 0)).toFrameIO
    Handle.readToEnd.toFrameIO
  Access.lift (Workspace.loadDocument document bytes codec)

end KeptIO

namespace HandleOp

open KeptIO

def perform : HandleOp → KeptIO Reply
  | moveTo position => do
    Access.edit fun kept => { kept with position }
    return .nothing
  | write codec kind message =>
    onStream do return .size (← message.use fun value => Frame.write codec kind value)
  | read codec frame kind => onStream do return .message (← kind.run (Frame.read codec frame))
  | readAt codec position kind =>
    onStream do return .message (← kind.run (Frame.readAt codec position))
  | openSink codec => onHandle do
    HandleIO.keepSink (Sink.atEnd codec)
    return .nothing
  | startSink codec start => onHandle do
    HandleIO.keepSink (pure (Sink.startingAt codec start))
    return .nothing
  | writeNested message => onHandle do
    return .ofOption .position
      (← HandleIO.onSink (message.use fun value => Sink.write .nested value))
  | finish root => onHandle do
    return .ofOption .size (← HandleIO.lastOnSink (root.use fun value => Sink.finish value))
  | save document codec => do return .ofOption .size (← KeptIO.save document codec)
  | readDocument document codec => do return .answer (.root (← KeptIO.readDocument document codec))

end HandleOp

namespace Session

def inWorkspace {α : Type} (work : Work α) : EStateM Error Session α := fun session =>
  match work session.workspace with
  | .ok value workspace => .ok value { session with workspace }
  | .error error workspace => .error error { session with workspace }

/-- Works on a kept handle, if there is one of that name. -/
def onHandle {α : Type} (name : String) (activity : KeptIO α) : EStateM Error Session (Option α) :=
  fun session =>
    match session.handles.find? name with
    | none => .ok none session
    | some kept =>
      match activity (kept, session.workspace) with
      | .ok value (kept, workspace) => .ok (some value) ⟨workspace, session.handles.set name kept⟩
      | .error error (kept, workspace) => .error error ⟨workspace, session.handles.set name kept⟩

def perform : SessionOp → EStateM Error Session Reply
  | .inWorkspace op => do return .answer (← inWorkspace (Workspace.perform op))
  | .openHandle handle stream => modifyGet fun session =>
    let kept : KeptHandle := { stream := session.workspace.streams.current stream }
    (.nothing, { session with handles := session.handles.set handle kept })
  | .onHandle handle op => do return (← onHandle handle op.perform).getD .missing

def step (op : SessionOp) (session : Session) : Except Error Reply × Session :=
  match perform op session with
  | .ok reply after => (.ok reply, after)
  | .error error after => (.error error, after)

/-- Performs operations one after another, whatever comes of them. Gives what each of them gives,
and the session after it. -/
def history : List SessionOp → Session → List (Except Error Reply × Session)
  | [], _ => []
  | op :: ops, session =>
    let next := step op session
    next :: history ops next.2

end Session
end FramedTree
