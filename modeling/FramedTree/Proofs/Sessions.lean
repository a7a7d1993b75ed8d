import Mathlib.Data.List.Forall2
import FramedTree.Proofs.EasedTrees

/-! # Short and interrupted transfers do not show

A session gives the same, step by step, whether its streams move few bytes at a time and interrupt
calls, or not: the same replies, the same bytes in every stream, and every handle at the same place.
-/

namespace FramedTree

variable {α : Type}

namespace Frame

private theorem read_seen [Message α] (codec : Codec) (frame : FrameKind) :
    SeenThrough True Handle.eased (read codec frame : FrameIO α) := by
  cases frame with
  | nested => exact seesReads.readNested codec
  | root => exact seesReads.readRoot codec

end Frame

namespace HandleIO

private theorem keepSink_seen {activity : FrameIO Sink}
    (h : SeenThrough True Handle.eased activity) :
    SeenThrough True (amid Handle.eased) (keepSink activity) := .bind (.lift h) fun _ => .edit _

private theorem onSink_seen {activity : SinkIO α}
    (h : SeenThrough True (amid Handle.eased) activity) :
    SeenThrough True (amid Handle.eased) (onSink activity) := by
  refine .node_bind fun sink => ?_
  cases sink with
  | some sink => exact .map _ (.within h)
  | none => exact .pure _

private theorem lastOnSink_seen {activity : SinkIO α}
    (h : SeenThrough True (amid Handle.eased) activity) :
    SeenThrough True (amid Handle.eased) (lastOnSink activity) := by
  refine .node_bind fun sink => ?_
  cases sink with
  | some sink => exact .bind (.edit _) fun _ => .map _ (.within h)
  | none => exact .pure _

end HandleIO

namespace KeptIO

private theorem onHandle_seen {activity : HandleIO α}
    (h : SeenThrough True (amid Handle.eased) activity) :
    SeenThrough True (amid Workspace.eased) (onHandle activity) := by
  rintro ⟨kept, workspace⟩ _
  have hrun : activity (kept.sink,
    ⟨(workspace.streams.get kept.stream).refit Faults.eased, kept.position⟩) =
      mapState (amid Handle.eased)
        (activity (kept.sink, ⟨workspace.streams.get kept.stream, kept.position⟩)) :=
    h.apply (kept.sink, ⟨workspace.streams.get kept.stream, kept.position⟩)
  have hput (sink : Option Sink) (handle : Handle) :
      ({ kept with position := handle.position, sink },
        { workspace.eased with streams := workspace.streams.eased.set kept.stream handle.eased.stream }) =
      amid Workspace.eased ({ kept with position := handle.position, sink },
        { workspace with streams := workspace.streams.set kept.stream handle.stream }) :=
    congrArg (fun streams => (({ kept with position := handle.position, sink } : KeptHandle),
      ({ workspace with streams } : Workspace))) (Streams.eased_set _ _ _).symm
  unfold onHandle
  dsimp only [amid]
  rw [show workspace.eased.streams = workspace.streams.eased from rfl, Streams.get_eased, hrun]
  cases activity (kept.sink, ⟨workspace.streams.get kept.stream, kept.position⟩) with
  | ok value state => exact congrArg (EStateM.Result.ok value) (hput state.1 state.2)
  | error error state => exact congrArg (EStateM.Result.error error) (hput state.1 state.2)

private theorem onStream_seen {activity : FrameIO α} (h : SeenThrough True Handle.eased activity) :
    SeenThrough True (amid Workspace.eased) (onStream activity) := onHandle_seen (.lift h)

private theorem save_seen (document : String) (codec : Codec) :
    SeenThrough True (amid Workspace.eased) (save document codec) := by
  rintro ⟨kept, workspace⟩ _
  unfold save
  dsimp only [amid]
  rw [show workspace.eased.streams = workspace.streams.eased from rfl,
    show workspace.eased.documents = workspace.documents from rfl]
  cases workspace.documents.find? document with
  | none => rfl
  | some tree =>
    have hrun : Document.saveThrough codec kept.stream
      (tree, workspace.streams.eased, kept.position) =
        mapState (amid Document.easedPlace)
          (Document.saveThrough codec kept.stream (tree, workspace.streams, kept.position)) :=
      (Document.saveThrough_seen codec kept.stream).apply (tree, workspace.streams, kept.position)
    dsimp only
    rw [hrun]
    cases Document.saveThrough codec kept.stream (tree, workspace.streams, kept.position) <;> rfl

private theorem readDocument_seen (document : String) (codec : Codec) :
    SeenThrough True (amid Workspace.eased) (readDocument document codec) := by
  refine .bind (onStream_seen ?_) fun bytes =>
    .lift (Workspace.loadDocument_seen document bytes codec)
  exact .bind (.map _ (.toFrameIO (Handle.seek_seen _))) fun _ => .toFrameIO Handle.readToEnd_seen

end KeptIO

private theorem HandleOp.perform_seen (op : HandleOp) :
    SeenThrough True (amid Workspace.eased) op.perform := by
  cases op with
  | moveTo position => exact .bind (.edit _) fun _ => .pure _
  | write codec kind message =>
    refine KeptIO.onStream_seen (.bind ?_ fun _ => .pure _)
    cases message <;> exact Frame.write_seen _ _ _
  | read codec frame kind =>
    refine KeptIO.onStream_seen (.bind ?_ fun _ => .pure _)
    cases kind <;> exact .map _ (Frame.read_seen _ _)
  | readAt codec position kind =>
    refine KeptIO.onStream_seen (.bind ?_ fun _ => .pure _)
    cases kind <;> exact .map _ (Frame.seesReads.readAt _ _)
  | openSink codec =>
    exact KeptIO.onHandle_seen (.bind (HandleIO.keepSink_seen (Sink.atEnd_seen _)) fun _ => .pure _)
  | startSink codec start =>
    exact KeptIO.onHandle_seen (.bind (HandleIO.keepSink_seen (.pure _)) fun _ => .pure _)
  | writeNested message =>
    refine KeptIO.onHandle_seen (.bind (HandleIO.onSink_seen ?_) fun _ => .pure _)
    cases message <;> exact Sink.write_seen _ _
  | finish root =>
    refine KeptIO.onHandle_seen (.bind (HandleIO.lastOnSink_seen ?_) fun _ => .pure _)
    cases root <;> exact Sink.finish_seen _
  | save document codec => exact .bind (KeptIO.save_seen _ _) fun _ => .pure _
  | readDocument document codec => exact .bind (KeptIO.readDocument_seen _ _) fun _ => .pure _

/-- The operation, with faults eased that it puts in place. -/
def SessionOp.eased : SessionOp → SessionOp
  | .inWorkspace op => .inWorkspace op.eased
  | op => op

namespace Session

def eased (session : Session) : Session := { session with workspace := session.workspace.eased }

private theorem onHandle_seen {activity : KeptIO α}
    (h : SeenThrough True (amid Workspace.eased) activity) (name : String) :
    SeenThrough True eased (onHandle name activity) := by
  intro session _
  unfold onHandle eased
  dsimp only
  cases session.handles.find? name with
  | none => rfl
  | some kept =>
    have hrun : activity (kept, session.workspace.eased) =
        mapState (amid Workspace.eased) (activity (kept, session.workspace)) :=
          h.apply (kept, session.workspace)
    dsimp only
    rw [hrun]
    cases activity (kept, session.workspace) <;> rfl

private theorem perform_eased (op : SessionOp) (session : Session) :
    perform op.eased session.eased = mapState eased (perform op session) := by
  cases op with
  | inWorkspace op =>
    have hrun : inWorkspace (Workspace.perform op.eased) session.eased =
        mapState eased (inWorkspace (Workspace.perform op) session) := by
      unfold inWorkspace
      rw [show session.eased.workspace = session.workspace.eased from rfl, Workspace.perform_eased]
      cases Workspace.perform op session.workspace <;> rfl
    change (Reply.answer <$> inWorkspace (Workspace.perform op.eased)) session.eased =
      mapState eased ((Reply.answer <$> inWorkspace (Workspace.perform op)) session)
    rw [map_apply, map_apply, hrun]
    cases inWorkspace (Workspace.perform op) session <;> rfl
  | openHandle handle stream => rfl
  | onHandle handle op =>
    exact SeenThrough.apply (.bind (onHandle_seen op.perform_seen handle) fun _ => .pure _) session

private theorem step_eased (op : SessionOp) (session : Session) :
    step op.eased session.eased = ((step op session).1, (step op session).2.eased) := by
  unfold step
  rw [perform_eased]
  cases perform op session <;> rfl

/-- Two steps that show the same: what the operation gives, the bytes of every stream and the seeks
made in it, where every kept handle stands and what the sink on it has counted, and all trees. The
second leaves eased streams behind. -/
structure SameStep (step other : Except Error Reply × Session) : Prop where
  reply_eq : other.1 = step.1
  bytes_eq : ∀ id, (other.2.workspace.streams.get id).bytes =
    (step.2.workspace.streams.get id).bytes
  seeks_eq : ∀ id, (other.2.workspace.streams.get id).seekLog =
    (step.2.workspace.streams.get id).seekLog
  handles_eq : other.2.handles = step.2.handles
  documents_eq : other.2.workspace.documents = step.2.workspace.documents
  session_eq : other.2 = step.2.eased

private theorem sameStep_eased (op : SessionOp) (session : Session) :
    SameStep (step op session) (step op.eased session.eased) := by
  rw [step_eased]
  have hget (id : StreamId) : (step op session).2.eased.workspace.streams.get id =
      ((step op session).2.workspace.streams.get id).refit Faults.eased := Streams.get_eased _ id
  exact {
    reply_eq := rfl
    bytes_eq := fun id => (congrArg Stream.bytes (hget id)).trans rfl
    seeks_eq := fun id => (congrArg Stream.seekLog (hget id)).trans rfl
    handles_eq := rfl
    documents_eq := rfl
    session_eq := rfl }

/-- Short and interrupted transfers do not show. Whatever is done in a session, with handles, sinks
and documents, and whatever the bounds on the bytes of one call, as long as they let any through,
and whichever calls are short or interrupted, as long as not for ever: every step shows the same as
it would without them. -/
theorem short_and_interrupted_transfers_invisible (ops : List SessionOp) (session : Session) :
    List.Forall₂ SameStep (history ops session)
      (history (ops.map SessionOp.eased) session.eased) := by
  induction ops generalizing session with
  | nil => exact .nil
  | cons op ops ih =>
    have hstep := sameStep_eased op session
    refine .cons hstep ?_
    rw [hstep.session_eq]
    exact ih _

/-- Faults that do nothing but hold transfers up are gone when they are eased. -/
example (most interruptions start : Nat) (reads writes : List Hiccup) : Faults.eased
    { read := some { effect := .fail .interruption, start, times := some interruptions }
      chunk := some (most + 1), readHiccups := reads, writeHiccups := writes } = {} := rfl

end Session
end FramedTree
