import FramedTree.Proofs.EasedTransfers
import FramedTree.Session

/-! # Trees over streams that are awkward to use

Whatever is done with trees comes to the same over eased streams: opening, loading and changing
them, but also saving them, writing them as text, where failures become a part of the text, and
comparing them, where failures are an answer.
-/

namespace FramedTree

variable {ν τ α β : Type}

private theorem Faults.sees_eased : Sees True Faults.eased := Frame.seesReads.sees rfl

/-- The streams without the faults that transfers get past. -/
abbrev Streams.eased : Streams → Streams := Streams.refit Faults.eased

theorem Streams.get_eased (streams : Streams) (id : StreamId) :
    streams.eased.get id = (streams.get id).refit Faults.eased :=
  Streams.get_refit rfl streams id

theorem Streams.eased_set (streams : Streams) (id : StreamId) (stream : Stream) :
    (streams.set id stream).eased = streams.eased.set id (stream.refit Faults.eased) :=
  Streams.refit_set streams id stream

/-- Work on a node that comes to the same over eased streams. -/
abbrev Eased (access : Access Streams ν α) : Prop := Seen True Faults.eased access

namespace Output

def eased (output : Output) : Output := { output with streams := output.streams.eased }

private theorem emit_seen {activity : SinkIO α}
    (h : SeenThrough True (amid Handle.eased) activity) :
    SeenThrough True eased (emit activity) := by
  intro output _
  have hrun : activity (output.sink,
    ⟨(output.streams.get output.target).refit Faults.eased, output.position⟩) =
      mapState (amid Handle.eased)
        (activity (output.sink, ⟨output.streams.get output.target, output.position⟩)) :=
    h.apply (output.sink, ⟨output.streams.get output.target, output.position⟩)
  unfold emit eased
  dsimp only
  rw [Streams.get_refit rfl, hrun]
  cases activity (output.sink, ⟨output.streams.get output.target, output.position⟩) with
  | ok value state => simp only [mapState_ok, Streams.refit_set, Handle.refit]
  | error error state => simp only [mapState_error, Streams.refit_set, Handle.refit]

private theorem loading_seen {access : Access Streams ν α} (h : Eased access) :
    SeenThrough True (amid eased) (loading access) :=
  .around h (fun _ => rfl) fun _ _ => rfl

private theorem write_seen [Message α] (header : α) :
    SeenThrough True (amid eased) (write header : Access Output ν Nat) :=
  .lift (emit_seen (Sink.write_seen _ _))

end Output

open Output

private theorem Entry.save_seen : SeenThrough True (amid Output.eased) Entry.save := by
  refine .bind (loading_seen (Faults.sees_eased.onIdentification .node)) fun identity => ?_
  refine .bind (write_seen _) fun identification => ?_
  refine .bind (loading_seen (Faults.sees_eased.onSecretIdentity .node)) fun secret => ?_
  refine .bind ?_ fun secretIdentity => .node_bind fun entry => write_seen _
  cases secret with
  | none => exact .pure _
  | some identity => exact .bind (write_seen _) fun _ => .pure _

namespace Document

private theorem saveEntries_seen : SeenThrough True (amid Output.eased) saveEntries :=
  .onCells fun stamp i =>
    .bind (loading_seen (.getOrLoad (Faults.sees_eased.loadEntry stamp i))) fun _ =>
      .within Entry.save_seen

private theorem saveAll_seen : SeenThrough True (amid Output.eased) saveAll :=
  .bind saveEntries_seen fun _ => .lift (emit_seen (Sink.finish_seen _))

/-- Streams and the position of a handle, with the streams eased. -/
abbrev easedPlace (place : Streams × Nat) : Streams × Nat := (place.1.eased, place.2)

theorem saveThrough_seen (codec : Codec) (target : StreamId) :
    SeenThrough True (amid easedPlace) (saveThrough codec target) := by
  rintro ⟨document, streams, position⟩ _
  have hopen : Sink.atEnd codec ⟨(streams.get target).refit Faults.eased, position⟩ =
      mapState Handle.eased (Sink.atEnd codec ⟨streams.get target, position⟩) :=
    (Sink.atEnd_seen codec).apply ⟨streams.get target, position⟩
  unfold saveThrough
  dsimp only [amid, easedPlace]
  rw [Streams.get_refit rfl, hopen]
  cases Sink.atEnd codec ⟨streams.get target, position⟩ with
  | error error handle =>
    exact congrArg (fun streams => EStateM.Result.error error (document, streams, handle.position))
      (Streams.refit_set streams target handle.stream).symm
  | ok sink handle =>
    have hset : streams.eased.set target handle.eased.stream =
      (streams.set target handle.stream).eased :=
      (Streams.refit_set streams target handle.stream).symm
    have hsave : saveAll (document,
        ⟨streams.eased.set target handle.eased.stream, target, handle.eased.position, sink⟩) =
        mapState (amid Output.eased)
          (saveAll
            (document, ⟨streams.set target handle.stream, target, handle.position, sink⟩)) := by
      rw [hset]
      exact saveAll_seen.apply
        (document, ⟨streams.set target handle.stream, target, handle.position, sink⟩)
    dsimp only [mapState_ok]
    rw [hsave]
    cases saveAll (document, ⟨streams.set target handle.stream, target, handle.position, sink⟩) <;>
      rfl

private theorem save_eq (codec : Codec) (target : StreamId) (position : Nat) (document : Document)
    (streams : Streams) :
    Document.save codec target position (document, streams) =
      mapState (fun state => (state.1, state.2.1))
        (saveThrough codec target (document, streams, position)) := by
  unfold Document.save saveThrough
  dsimp only
  cases Sink.atEnd codec ⟨streams.get target, position⟩ with
  | error error handle => rfl
  | ok sink handle =>
    dsimp only
    cases saveAll (document, ⟨streams.set target handle.stream, target, handle.position, sink⟩) <;>
      rfl

private theorem save_seen (codec : Codec) (target : StreamId) (position : Nat) :
    Eased (Document.save codec target position) := by
  rintro ⟨document, streams⟩ _
  rw [save_eq, save_eq, mapState_mapState]
  exact (congrArg _ ((saveThrough_seen codec target).apply (document, streams, position))).trans
    (mapState_mapState _ _ _)

private theorem saveToBytes_seen (codec : Codec) : Eased (saveToBytes codec) := by
  rintro ⟨document, streams⟩ _
  have hsave : Document.save codec .scratch 0 (document, { streams.eased with scratch := {} }) =
      mapState (amid Streams.eased)
        (Document.save codec .scratch 0 (document, { streams with scratch := {} })) :=
    (save_seen codec .scratch 0).apply (document, { streams with scratch := {} })
  unfold saveToBytes
  dsimp only [amid]
  rw [hsave]
  cases Document.save codec .scratch 0 (document, { streams with scratch := {} }) <;> rfl

end Document

private theorem Entry.outline_seen : Eased Entry.outline :=
  .bind (.attempt (Faults.sees_eased.onIdentification .node)) fun _ =>
    .bind (.attempt (Faults.sees_eased.onSecretIdentity .node)) fun _ => .node_bind fun _ => .pure _

private theorem Entry.text_seen : Eased Entry.text := .bind Entry.outline_seen fun _ => .pure _

private theorem Document.outline_seen : Eased Document.outline := by
  refine .onCells fun stamp i => ?_
  refine .bind (.attempt (.access (Faults.sees_eased.loadEntry stamp i) Entry.outline_seen))
    fun fields => ?_
  cases fields with
  | ok fields => exact .pure _
  | error error => exact .pure _

private theorem Document.text_seen :
    Eased Document.text := .bind Document.outline_seen fun _ => .pure _

/-- An activity that cannot fail gives the same in the state that is seen, and leaves behind what is
seen of the state it leaves behind. -/
def SeenSafely (view : τ → τ) (activity : StateM τ α) : Prop :=
  ∀ state, activity (view state) = ((activity state).1, view (activity state).2)

namespace SeenSafely

variable {view : τ → τ}

private theorem pure (value : α) : SeenSafely view (Pure.pure value : StateM τ α) := fun _ => rfl

private theorem bind {activity : StateM τ α} {next : α → StateM τ β} (h : SeenSafely view activity)
    (hnext : ∀ value, SeenSafely view (next value)) : SeenSafely view (activity >>= next) := by
  intro state
  change next (activity (view state)).1 (activity (view state)).2 = _
  rw [h]
  exact hnext _ _

end SeenSafely

namespace Workspace

abbrev eased : Workspace → Workspace := refit Faults.eased

/-- A part of a workspace on which work comes to the same over eased streams. -/
def EasedSpot (spot : Spot Workspace ν) : Prop :=
  ∀ {β : Type} {access : Access Streams ν β},
    Eased access → SeenThrough True eased (spot.run access)

private theorem easedSpot_document (name : String) :
    EasedSpot (documentSpot name) := fun h => seen_onDocument h

private theorem EasedSpot.entry {spot : Spot Workspace Document} (h : EasedSpot spot) (i : Nat) :
    EasedSpot (spot.entry i) :=
  fun haccess => .bind (h (Faults.sees_eased.onEntry i haccess)) fun _ => .pure _

private theorem easedSpot_entry (place : EntryPlace) : EasedSpot (entrySpot place) := by
  cases place with
  | inDocument document i => exact EasedSpot.entry (easedSpot_document document) i
  | standalone name => exact fun h => seen_onStandaloneEntry h

private theorem EasedSpot.look {spot : Spot Workspace ν} (h : EasedSpot spot)
    {access : Access Streams ν β} (haccess : Eased access) :
    SeenSafely eased (spot.look access) := by
  intro workspace
  unfold Spot.look
  rw [(h haccess).apply]
  cases spot.run access workspace <;> rfl

private theorem entryEqual_seen {left right : Spot Workspace Entry} (hleft : EasedSpot left)
    (hright : EasedSpot right) :
    SeenSafely eased (Entry.equal left right) := by
  have hidentity : Eased (Entry.onIdentification Access.node) :=
    Faults.sees_eased.onIdentification .node
  have hrest : Eased Entry.secretAndEntry :=
    .bind (Faults.sees_eased.onSecretIdentity .node) fun _ => .node_bind fun _ => .pure _
  refine .bind (hleft.look hidentity) fun _ => .bind (hright.look hidentity) fun _ => ?_
  refine .bind (hleft.look hrest) fun _ => .bind (hright.look hrest) fun _ => ?_
  split
  · exact .pure _
  · exact .pure _

private theorem allEqual_seen {left right : Spot Workspace Document} (hleft : EasedSpot left)
    (hright : EasedSpot right) (pairs : List (Nat × Nat)) :
    SeenSafely eased (Entry.allEqual left right pairs) := by
  induction pairs with
  | nil => exact .pure _
  | cons pair rest ih =>
    refine .bind (entryEqual_seen (hleft.entry pair.1) (hright.entry pair.2)) fun same => ?_
    split
    · exact ih
    · exact .pure _

private theorem documentEqual_seen {left right : Spot Workspace Document} (hleft : EasedSpot left)
    (hright : EasedSpot right) :
    SeenSafely eased (Document.equal left right) := by
  have hnumbers {spot : Spot Workspace Document} (h : EasedSpot spot) :
      SeenSafely eased (Document.entryNumbers spot) := by
    refine .bind (h.look Faults.sees_eased.entryList) fun _ => .bind (h.look .node) fun _ => ?_
    split
    · exact .pure _
    · exact .pure _
  refine .bind (hnumbers hleft) fun mine => .bind (hnumbers hright) fun theirs => ?_
  split
  · split
    · exact allEqual_seen hleft hright _
    · exact .pure _
  · exact .pure _

private theorem readWhole_seen (stream : StreamId) (position : Nat) :
    SeenThrough True Streams.eased (readWhole stream position) :=
  .withHandle rfl
    (.bind (.map _ (.toFrameIO (Handle.seek_seen _))) fun _ => .toFrameIO Handle.readToEnd_seen) _ _

theorem loadDocument_seen (name : String) (bytes : Bytes) (codec : Codec) :
    SeenThrough True eased (loadDocument name bytes codec) := by
  refine .bind (Faults.sees_eased.openSource _) fun document => ?_
  refine .bind (seen_onStreams fun streams _ => ?_) fun _ =>
    .bind (.modifyGet fun _ => rfl) fun _ => .pure _
  rw [Faults.sees_eased.documentLoadAll.apply (document, streams)]
  cases Document.loadAll (document, streams) <;> rfl

private theorem readDocument_seen (name : String) (stream : StreamId) (position : Nat)
    (codec : Codec) :
    SeenThrough True eased (readDocument name stream position codec) :=
  .bind (seen_onStreams (readWhole_seen stream position)) fun _ => loadDocument_seen name _ codec

end Workspace

/-- The operation, with faults eased that it puts in place. -/
def Op.eased : Op → Op
  | .setStream stream bytes faults => .setStream stream bytes faults.eased
  | .setFaults stream faults => .setFaults stream faults.eased
  | op => op

namespace Workspace

private theorem editStream_eased {f g : Stream → Stream} (name : String)
    (h : ∀ stream, g (stream.refit Faults.eased) = (f stream).refit Faults.eased)
    (workspace : Workspace) :
    editStream name g workspace.eased = mapState eased (editStream name f workspace) := by
  have hmodify : workspace.streams.eased.modify (workspace.streams.current name) g =
      (workspace.streams.modify (workspace.streams.current name) f).eased := by
    unfold Streams.modify
    rw [Streams.get_eased, h, Streams.eased_set]
  exact congrArg
    (fun streams => EStateM.Result.ok Answer.nothing { workspace with streams }) hmodify

private theorem editStream_seen {f : Stream → Stream} (name : String)
    (h : ∀ stream, f (stream.refit Faults.eased) = (f stream).refit Faults.eased) :
    SeenThrough True eased (editStream name f) :=
      fun workspace _ => editStream_eased name h workspace

private theorem currentStream_seen (name : String) : SeenThrough True eased (currentStream name) :=
  .get_bind (fun _ => rfl) fun _ => .pure _

private theorem atStream_seen {next : Stream → Work α} (name : String)
    (hnext : ∀ stream, next (stream.refit Faults.eased) = next stream)
    (h : ∀ stream, SeenThrough True eased (next stream)) :
    SeenThrough True eased (get >>= fun workspace =>
      currentStream name >>= fun id => next (workspace.streams.get id)) := by
  intro workspace _
  have hget : next (workspace.streams.eased.get (workspace.streams.current name)) =
      next (workspace.streams.get (workspace.streams.current name)) := by
    rw [Streams.get_eased, hnext]
  exact (congrFun hget workspace.eased).trans ((h _).apply workspace)

private theorem hasPlace_eased (workspace : Workspace) (place : EntryPlace) :
    workspace.eased.hasPlace place = workspace.hasPlace place := by
  cases place <;> rfl

private theorem equalEntries_seen (entry other : EntryPlace) :
    SeenThrough True eased (perform (.equalEntries entry other)) := by
  refine .modifyGet fun workspace => ?_
  rw [hasPlace_eased, hasPlace_eased]
  split
  · rfl
  · rw [EasedSpot.look (easedSpot_entry entry) .node workspace]
    generalize (entrySpot entry).look Access.node workspace = first
    obtain ⟨mine, between⟩ := first
    dsimp only
    rw [EasedSpot.look (easedSpot_entry other) .node between]
    generalize (entrySpot other).look Access.node between = second
    obtain ⟨theirs, last⟩ := second
    dsimp only
    split
    · rw [entryEqual_seen (easedSpot_entry entry) (easedSpot_entry other)]
      rfl
    · rfl

private theorem lookAtEntry_seen (entry : EntryPlace) (look : EntryLook) :
    SeenThrough True eased (perform (.lookAtEntry entry look)) := by
  by_cases htext : look = .text
  · subst htext
    exact .bind (Faults.sees_eased.atEntry entry (.bind Entry.text_seen fun _ => .pure _))
      fun _ => .pure _
  · exact Faults.sees_eased.perform (bne_iff_ne.2 htext)

/-- An operation answers the same, and leaves behind the same, over eased streams. -/
theorem perform_eased (op : Op) (workspace : Workspace) :
    perform op.eased workspace.eased = mapState eased (perform op workspace) := by
  cases op with
  | setStream stream bytes faults =>
    have hrenew : workspace.streams.eased.renew stream ⟨bytes.toArray, faults.eased, []⟩ =
        (workspace.streams.renew stream ⟨bytes.toArray, faults, []⟩).eased := by
      unfold Streams.renew
      dsimp only
      rw [Streams.eased_set]
      rfl
    exact congrArg
      (fun streams => EStateM.Result.ok Answer.nothing { workspace with streams }) hrenew
  | setFaults stream faults | patch stream position bytes | truncate stream length
  | append stream bytes =>
    refine editStream_eased stream ?_ workspace
    exact fun _ => rfl
  | dump stream =>
    exact (@atStream_seen Answer (fun found => pure (.bytes found.bytes)) stream (fun _ => rfl)
      fun _ => .pure _).apply
      workspace
  | takeSeeks stream =>
    have hforget : SeenThrough True eased (editStream stream fun old => { old with seeks := [] }) :=
      editStream_seen stream fun _ => rfl
    exact (@atStream_seen Answer (fun found => do
      discard (editStream stream fun old => { old with seeks := [] })
      return .seeks found.seekLog) stream (fun _ => rfl) fun _ => .bind (.map _ hforget) fun _ =>
      .pure _).apply workspace
  | readDocument document stream position codec =>
    exact SeenThrough.apply (.bind (currentStream_seen stream) fun _ =>
      .bind (readDocument_seen document _ position codec) fun _ => .pure _) workspace
  | loadDocument document bytes codec =>
    exact SeenThrough.apply
      (.bind (loadDocument_seen document bytes codec) fun _ => .pure _) workspace
  | loadDocumentOf document stream codec =>
    exact (@atStream_seen Answer
      (fun found => do return .root (← loadDocument document found.bytes codec)) stream
      (fun _ => rfl) fun found => .bind (loadDocument_seen document _ codec) fun _ =>
        .pure _).apply workspace
  | save document stream codec =>
    exact SeenThrough.apply (.bind (currentStream_seen stream) fun _ =>
      seen_atDocument (.bind (Document.save_seen codec _ 0) fun _ => .pure _)) workspace
  | saveToBytes document codec =>
    exact SeenThrough.apply
      (seen_atDocument (.bind (Document.saveToBytes_seen codec) fun _ => .pure _)) workspace
  | isEntryLoaded document i =>
    exact SeenThrough.apply (seen_atDocument (.node_bind fun _ => .pure _)) workspace
  | documentText document =>
    exact SeenThrough.apply (seen_atDocument (.bind Document.text_seen fun _ => .pure _)) workspace
  | equalDocuments document other =>
    suffices h : SeenThrough True eased
      (perform (.equalDocuments document other)) from h.apply workspace
    refine .get_bind (fun _ => rfl) fun _ => ?_
    split
    · refine .modifyGet fun workspace => ?_
      rw [documentEqual_seen (easedSpot_document document) (easedSpot_document other)]
      rfl
    · exact .pure _
  | equalEntries entry other => exact (equalEntries_seen entry other).apply workspace
  | equalIdentities identity other =>
    suffices h : SeenThrough True eased
      (perform (.equalIdentities identity other)) from h.apply workspace
    refine .get_bind (fun _ => rfl) fun _ => ?_
    split
    · exact .pure _
    · exact .pure _
  | lookAtEntry entry look => exact (lookAtEntry_seen entry look).apply workspace
  | _ => exact (Faults.sees_eased.perform rfl).apply workspace

end Workspace
end FramedTree
