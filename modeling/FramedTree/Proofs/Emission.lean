import FramedTree.Proofs.Saving

/-! # What saving gives

A document that shows some contents is saved to a stream of its own by writing the frames of these
contents, or fails as writing them does. It makes no difference how much of the document was loaded,
or from where.
-/

namespace FramedTree

variable {ν α β : Type} {library : Library} {target : StreamId} {codec : Codec}

section Writing

variable {handle : Handle}

private theorem Handle.writeAll_free (hfree : handle.stream.faults = {}) (data : Bytes) :
    ∃ after, Handle.writeAll data handle = .ok () after ∧ after.stream.faults = {} := by
  obtain ⟨⟨content, faults, seeks⟩, position⟩ := handle
  dsimp only at hfree
  subst hfree
  cases data with
  | nil => exact ⟨_, rfl, rfl⟩
  | cons byte rest =>
    -- The first call takes everything, so that there is nothing left for the others.
    change ∃ after, Handle.pour rest.length ((byte :: rest).drop (rest.length + 1)) _ =
      .ok () after ∧ _
    rw [List.drop_succ_cons, List.drop_length]
    cases rest.length <;> exact ⟨_, rfl, rfl⟩

theorem Frame.write_free [Message α] {kind : FrameKind} {value : α} {frame : Bytes}
    (hfree : handle.stream.faults = {}) (hencode : Frame.encode codec kind value = .ok frame) :
    ∃ after, Frame.write codec kind value handle = .ok frame.length after ∧
      after.stream.faults = {} := by
  obtain ⟨after, hwrite, hafter⟩ := Handle.writeAll_free hfree frame
  refine ⟨after, ?_, hafter⟩
  rw [Frame.write_of_encode hencode, bind_apply, Transfer.toFrameIO_ok hwrite]
  rfl

end Writing

namespace Output

/-- Everything is ready to write to a stream that never fails and that nothing is read from, while
the known streams hold their bytes. -/
structure Clear (library : Library) (target : StreamId) (codec : Codec) (output : Output) :
    Prop where
  target_eq : output.target = target
  holds : output.streams.Holds library
  unknown : library output.target = none
  free : (output.streams.get output.target).faults = {}
  codec_eq : output.sink.codec = codec
  ready : output.Ready

variable {output : Output}

private theorem Clear.emit_write [Message α] {kind : FrameKind} {header : α} {frame : Bytes}
    (h : output.Clear library target codec) (hencode : Frame.encode codec kind header = .ok frame) :
    ∃ output', emit (Sink.write kind header) output = .ok output.bytes.length output' ∧
      output'.Clear library target codec ∧ output'.bytes = output.bytes ++ frame := by
  obtain rfl := h.codec_eq
  obtain ⟨handle, hwrite, hfree⟩ :=
    @Frame.write_free α _ ⟨output.streams.get output.target, output.position⟩ _
    kind header frame h.free hencode
  have hemit := @emit_write_apply α output _ kind header
  rw [hwrite] at hemit
  obtain ⟨hposition, frame', hencode', hextends⟩ := emit_write_ok h.ready hemit
  cases hencode.symm.trans hencode'
  rw [hposition] at hemit
  refine ⟨_, hemit, ⟨h.target_eq, h.holds.set h.unknown _, h.unknown, ?_, rfl, ?_⟩, ?_⟩
  · rw [Streams.get_set, if_pos rfl]
    exact hfree
  · rw [hposition] at hextends
    exact hextends.ready
  · rw [hposition] at hextends
    exact hextends.bytes_eq

private theorem Clear.emit_refused [Message α] {kind : FrameKind} {header : α} {error : Error}
    (h : output.Clear library target codec)
    (hencode : Frame.encode codec kind header = .error error) :
    ∃ output', emit (Sink.write kind header) output = .error error output' := by
  obtain rfl := h.codec_eq
  rw [emit_write_apply, Frame.write_refused hencode]
  exact ⟨_, rfl⟩

private theorem Clear.loaded {streams : Streams} (h : output.Clear library target codec)
    (hstreams : Streams.Follows library output.streams streams) :
    Clear library target codec { output with streams } ∧
    bytes { output with streams } = output.bytes := by
  have htarget : streams.get output.target = output.streams.get output.target :=
    hstreams.other output.target h.unknown
  have hbytes : bytes { output with streams } = output.bytes := by
    rw [bytes, bytes, htarget]
  refine ⟨⟨h.target_eq, hstreams.holds, h.unknown, ?_, h.codec_eq, ?_, ?_⟩, hbytes⟩
  · rw [htarget]
    exact h.free
  · rw [hbytes]
    exact h.ready.position_eq
  · rw [hbytes]
    exact h.ready.sink_eq

end Output

/-- What came of writing to an output is what came of adding to its bytes. -/
def Emitted (library : Library) (target : StreamId) (codec : Codec) (P : ν → Prop)
    (result : EStateM.Result Error (ν × Output) α) : Except Error (α × Bytes) → Prop
  | .ok (value, bytes) => ∃ node output, result = .ok value (node, output) ∧ P node ∧
    output.Clear library target codec ∧ output.bytes = bytes
  | .error error => ∃ state, result = .error error state

private theorem Emitted.mapNode {μ : Type} {P : ν → Prop}
    {result : EStateM.Result Error (ν × Output) α} {outcome : Except Error (α × Bytes)}
    (h : Emitted library target codec P result outcome) (f : ν → μ) :
    Emitted library target codec (fun _ => True)
      (mapState (fun state => (f state.1, state.2)) result) outcome := by
  cases outcome with
  | error error =>
    obtain ⟨state, rfl⟩ := h
    exact ⟨_, rfl⟩
  | ok written =>
    obtain ⟨node, output, rfl, -, houtput⟩ := h
    exact ⟨f node, output, rfl, trivial, houtput⟩

/-- An access that writes to the output, from every node with a property, what the scribe adds to
its bytes. -/
def Emits (library : Library) (target : StreamId) (codec : Codec) (V : ν → Prop)
    (access : Access Output ν α) (scribe : Scribe α) (P : ν → Prop) : Prop :=
  ∀ node output, V node → output.Clear library target codec →
    Emitted library target codec P (access (node, output)) (scribe output.bytes)

namespace Emits

variable {V P : ν → Prop} {scribe : Scribe α}

private theorem pure {value : α} :
    Emits library target codec V (Pure.pure value) (Pure.pure value) V :=
  fun node output hnode houtput => ⟨node, output, rfl, hnode, houtput, rfl⟩

private theorem bind {Q : ν → Prop} {access : Access Output ν α} {next : α → Access Output ν β}
    {rest : α → Scribe β} (h : Emits library target codec V access scribe P)
    (hnext : ∀ value, Emits library target codec P (next value) (rest value) Q) :
    Emits library target codec V (access >>= next) (scribe >>= rest) Q := by
  intro node output hnode houtput
  have hfirst := h node output hnode houtput
  rw [bind_apply, Scribe.bind_apply]
  cases hscribe : scribe output.bytes with
  | error error =>
    rw [hscribe] at hfirst
    obtain ⟨state, hrun⟩ := hfirst
    rw [hrun]
    exact ⟨state, rfl⟩
  | ok state =>
    rw [hscribe] at hfirst
    obtain ⟨after, output', hrun, hafter, houtput', hbytes⟩ := hfirst
    rw [hrun]
    dsimp only
    rw [← hbytes]
    exact hnext state.1 after output' hafter houtput'

private theorem loading_bind {Q : α → ν → Prop} {access : Access Streams ν α}
    {next : α → Access Output ν β} {scribe : Scribe β} (h : Gives library V access Q)
    (hnext : ∀ value, Emits library target codec (Q value) (next value) scribe P) :
    Emits library target codec V (Output.loading access >>= next) scribe P := by
  intro node output hnode houtput
  obtain ⟨value, after, streams, hrun, hafter, hstreams⟩ :=
    h node output.streams hnode houtput.holds
  obtain ⟨hclear, hbytes⟩ := houtput.loaded hstreams
  rw [bind_apply, Output.loading, Access.around_apply, hrun, ← hbytes]
  exact hnext value after _ hafter hclear

private theorem node_bind {next : ν → Access Output ν α}
    (h : ∀ node, V node → Emits library target codec V (next node) scribe P) :
    Emits library target codec V (Access.node >>= next) scribe P := by
  intro node output hnode houtput
  rw [Access.node_bind_apply]
  exact h node hnode node output hnode houtput

private theorem of_and {p : Prop} {access : Access Output ν α}
    (h : p → Emits library target codec V access scribe P) :
    Emits library target codec (fun node => p ∧ V node) access scribe P :=
  fun node output hnode => h hnode.1 node output hnode.2

private theorem write [Message β] (header : β) :
    Emits library target codec V (Output.write header) (Scribe.frame codec .nested header) V := by
  intro node output hnode houtput
  rw [Output.write, Access.lift_apply]
  cases hencode : Frame.encode codec .nested header with
  | error error =>
    rw [Scribe.frame_error hencode]
    obtain ⟨output', hemit⟩ := houtput.emit_refused hencode
    rw [hemit]
    exact ⟨_, rfl⟩
  | ok frame =>
    rw [Scribe.frame_eq hencode]
    obtain ⟨output', hemit, houtput', hbytes⟩ := houtput.emit_write hencode
    rw [hemit]
    exact ⟨node, output', rfl, hnode, houtput', hbytes⟩

private theorem write_secret (secret : Option Identity) :
    Emits library target codec V (secret.mapM fun identity => Output.write identity.header)
      ((secret.map Identity.header).mapM (Scribe.frame codec .nested)) V := by
  cases secret with
  | none => exact Emits.pure
  | some secret => exact Emits.bind (Emits.write secret.header) fun _ => Emits.pure

private theorem opens {load : Option Origin → Load ν} {inner : Access Output ν α}
    {access : Access Output (Lazy ν) α}
    (hopens : Lazy.Opens
      (Lazy.widen Output.streams (fun streams output => { output with streams }) load) inner access)
    (h : Emits library target codec V inner scribe P) :
    Emits library target codec (Lazy.Shows library load V) access scribe fun _ => True := by
  rintro cell output ⟨value, hsettles, hvalue⟩ houtput
  obtain ⟨streams, hfetch, hstreams⟩ := hsettles output.streams houtput.holds
  obtain ⟨hclear, hbytes⟩ := houtput.loaded hstreams
  have hwide : cell.fetch
    (Lazy.widen Output.streams (fun streams output => { output with streams }) load) output =
      .ok value { output with streams } := by
    rw [Lazy.fetch_widen fun _ => rfl, hfetch]
    rfl
  obtain ⟨kept, -, hrun⟩ := hopens.fetched hwide
  have hinner := h value _ hvalue hclear
  rw [hbytes] at hinner
  rw [hrun]
  exact hinner.mapNode fun after => Lazy.putBack after kept

end Emits

private theorem Entry.emits_save {content : EntryContent} :
    Emits library target codec (Entry.Shows library · content) Entry.save (content.write codec)
      (Entry.Shows library · content) := by
  refine Emits.loading_bind Entry.gives_onIdentification fun identity =>
    Emits.of_and fun hidentity => ?_
  rw [hidentity]
  refine Emits.bind (Emits.write _) fun identification => ?_
  refine Emits.loading_bind Entry.gives_onSecretIdentity fun secret =>
    Emits.of_and fun hsecret => ?_
  rw [← hsecret]
  refine Emits.bind (Emits.write_secret secret) fun secretIdentity =>
    Emits.node_bind fun entry hentry => ?_
  rw [Entry.toHeader_eq hentry.approver hentry.reviewers]
  exact Emits.write _

namespace Document

variable {contents : List EntryContent} {output : Output}

private theorem emits_saveFrom {stamp : Stamp} (i : Nat) {cells : List (Option (Lazy Entry))}
    (hlength : cells.length = contents.length)
    (hcells : ∀ j, Option.Rel (ShowsEntry library stamp (i + j)) cells[j]?.join contents[j]?)
    (houtput : output.Clear library target codec) :
    Emitted library target codec (fun _ => True)
      (Slots.accessFrom (fun i => Lazy.access (loadForSaving stamp i) Entry.save) i cells output)
      (writeEntries codec contents output.bytes) := by
  -- The output changes with every entry; all that the next one needs is that it stays clear.
  induction contents generalizing i cells output with
  | nil =>
    obtain rfl := List.length_eq_zero_iff.1 hlength
    exact ⟨[], output, rfl, trivial, houtput, rfl⟩
  | cons content contents ih =>
    cases cells with
    | nil => cases hlength
    | cons cell cells =>
      have hfirst := hcells 0
      have hrest (j : Nat) : Option.Rel
        (ShowsEntry library stamp (i + 1 + j)) cells[j]?.join contents[j]? := by
        have hj := hcells (j + 1)
        rw [show i + 1 + j = i + (j + 1) by omega]
        exact hj
      cases cell with
      | none => cases hfirst
      | some cell =>
        have hcell : ShowsEntry library stamp i cell content := by
          cases hfirst with
          | some hcell => exact hcell
        have hsave :=
          Emits.opens (Lazy.access_opens (loadForSaving stamp i) Entry.save) Entry.emits_save
          cell output hcell houtput
        rw [writeEntries, Scribe.bind_apply]
        cases hwrite : content.write codec output.bytes with
        | error error =>
          rw [hwrite] at hsave
          obtain ⟨state, hrun⟩ := hsave
          exact ⟨_, Slots.accessFrom_of_error hrun cells⟩
        | ok state =>
          rw [hwrite] at hsave
          obtain ⟨later, between, hrun, -, hbetween, hbytes⟩ := hsave
          have hothers := ih (i + 1) (Nat.succ.inj hlength) hrest hbetween
          rw [Slots.accessFrom_of_ok hrun]
          dsimp only
          rw [Scribe.bind_apply, ← hbytes]
          cases hwrites : writeEntries codec contents between.bytes with
          | error error =>
            rw [hwrites] at hothers
            obtain ⟨state, hruns⟩ := hothers
            rw [hruns]
            exact ⟨_, rfl⟩
          | ok last =>
            rw [hwrites] at hothers
            obtain ⟨cells', output', hruns, -, houtput'⟩ := hothers
            rw [hruns]
            exact ⟨_, output', rfl, trivial, houtput'⟩

private theorem emits_saveEntries :
    Emits library target codec (Shows library · contents) saveEntries (writeEntries codec contents)
      fun _ => True := by
  intro document output hdocument houtput
  have hcells (j : Nat) : Option.Rel (ShowsEntry library document.stamp (0 + j))
      document.entries.cells.toList[j]?.join contents[j]? := by
    rw [Nat.zero_add, Array.getElem?_toList]
    exact hdocument.slot j
  have hsave :=
    emits_saveFrom 0 (by rw [Array.length_toList]; exact hdocument.size_eq) hcells houtput
  rw [saveEntries_eq, onCells, Access.node_bind_apply, Access.within_apply, Slots.accessAll_apply]
  exact (hsave.mapNode fun cells => ⟨cells.toArray⟩).mapNode fun slots =>
    { document with entries := slots }

end Document

namespace Sink

variable {sink : Sink} {handle handle' : Handle}

private theorem flush_free (h : handle.stream.faults = {}) :
    Sink.flush (sink, handle) = .ok () (sink, handle) := by
  unfold Sink.flush Handle.flush
  simp only [h, Option.filter_none]

theorem finish_free [Message α] {header : α} {size : Nat} (hfree : handle'.stream.faults = {})
    (h : Frame.write sink.codec .root header handle = .ok size handle') :
    ∃ total sink', Sink.finish header (sink, handle) = .ok total (sink', handle') := by
  have hwrite : Sink.write .root header (sink, handle) = .ok sink.position
      ({ sink with position := sink.position + size, frames := sink.frames + 1 }, handle') := by
    unfold Sink.write
    simp only [h]
  rw [Sink.finish, discard_bind, bind_apply, hwrite]
  dsimp only
  rw [bind_apply, flush_free hfree]
  exact ⟨_, _, rfl⟩

private theorem finish_refused [Message α] {header : α} {error : Error}
    (h : Frame.write sink.codec .root header handle = .error error handle') :
    Sink.finish header (sink, handle) = .error error (sink, handle') := by
  have hwrite : Sink.write .root header (sink, handle) = .error error (sink, handle') := by
    unfold Sink.write
    simp only [h]
  rw [Sink.finish, discard_bind, bind_apply, hwrite]

end Sink

namespace Output

variable {output : Output}

private theorem Clear.emit_finish [Message α] {header : α} {frame : Bytes}
    (h : output.Clear library target codec)
    (hencode : Frame.encode codec .root header = .ok frame) :
    ∃ size output', emit (Sink.finish header) output = .ok size output' ∧ output'.target = target ∧
      output'.bytes = output.bytes ++ frame := by
  obtain rfl := h.codec_eq
  obtain ⟨handle, hwrite, hfree⟩ :=
    @Frame.write_free α _ ⟨output.streams.get output.target, output.position⟩ _
    .root header frame h.free hencode
  obtain ⟨total, sink, hfinish⟩ := Sink.finish_free hfree hwrite
  have hemit : emit (Sink.finish header) output = .ok total
      { output with
        streams := output.streams.set output.target handle.stream
        position := handle.position
        sink } := by
    unfold emit
    simp only [hfinish]
  obtain ⟨frame', hencode', hbytes, htarget, -⟩ := emit_finish_ok h.ready hemit
  cases hencode.symm.trans hencode'
  exact ⟨total, _, hemit, htarget.trans h.target_eq, hbytes⟩

private theorem Clear.finish_refused [Message α] {header : α} {error : Error}
    (h : output.Clear library target codec)
    (hencode : Frame.encode codec .root header = .error error) :
    ∃ output', emit (Sink.finish header) output = .error error output' := by
  obtain rfl := h.codec_eq
  unfold emit
  simp only [Sink.finish_refused (Frame.write_refused hencode)]
  exact ⟨_, rfl⟩

end Output

namespace Document

variable {contents : List EntryContent} {output : Output} {document : Document}

private theorem saveAll_emitted (hdocument : document.Shows library contents)
    (houtput : output.Clear library target codec) :
    match write codec contents output.bytes with
    | .ok (_, bytes) =>
      ∃ size saved output', saveAll (document, output) = .ok size (saved, output') ∧
      output'.target = target ∧ output'.bytes = bytes
    | .error error => ∃ state, saveAll (document, output) = .error error state := by
  have hentries := emits_saveEntries document output hdocument houtput
  rw [write, Scribe.bind_apply, saveAll, bind_apply]
  cases hwrites : writeEntries codec contents output.bytes with
  | error error =>
    rw [hwrites] at hentries
    obtain ⟨state, hrun⟩ := hentries
    rw [hrun]
    exact ⟨state, rfl⟩
  | ok state =>
    rw [hwrites] at hentries
    obtain ⟨saved, between, hrun, -, hbetween, hbytes⟩ := hentries
    rw [hrun]
    dsimp only
    rw [Access.lift_apply, ← hbytes]
    cases hencode : Frame.encode codec .root (⟨state.1.map Nat.toUInt64⟩ : DocumentHeader) with
    | error error =>
      obtain ⟨output', hfinish⟩ := hbetween.finish_refused hencode
      rw [hfinish, Scribe.discard_apply, Scribe.frame_error hencode]
      exact ⟨_, rfl⟩
    | ok frame =>
      obtain ⟨size, output', hfinish, htarget, hwritten⟩ := hbetween.emit_finish hencode
      rw [hfinish, Scribe.discard_apply, Scribe.frame_eq hencode]
      exact ⟨size, saved, output', rfl, htarget, hwritten⟩

theorem atEnd_free {handle : Handle} (h : handle.stream.faults = {}) :
    ∃ sink handle', Sink.atEnd codec handle = .ok sink handle' ∧ handle'.stream.faults = {} := by
  have hcalm : handle.stream.Calm := by
    constructor <;> rw [h]
    exact nofun
  rw [Sink.atEnd, bind_apply, Transfer.toFrameIO_ok (Handle.seek_eq hcalm _)]
  exact ⟨_, _, rfl, h⟩

variable {streams : Streams}

/-- A document that shows some contents is saved to a stream without faults by adding the frames of
the contents to what the stream holds. -/
private theorem save_emitted (hdocument : document.Shows library contents)
    (hstreams : streams.Holds library) (hunknown : library target = none)
    (hfree : (streams.get target).faults = {}) (position : Nat) :
    match write codec contents (streams.get target).bytes with
    | .ok (_, bytes) => ∃ size saved streams',
      save codec target position (document, streams) = .ok size (saved, streams') ∧
        (streams'.get target).bytes = bytes
    | .error error =>
      ∃ state, save codec target position (document, streams) = .error error state := by
  obtain ⟨sink, handle, hsink, hhandle⟩ := @atEnd_free codec ⟨streams.get target, position⟩ hfree
  obtain ⟨rfl, hend, hcontent⟩ := atEnd_ok hsink
  let output : Output := ⟨streams.set target handle.stream, target, handle.position,
    Sink.startingAt codec (streams.get target).content.size⟩
  obtain ⟨hready, hbytes⟩ : output.Ready ∧ output.bytes = (streams.get target).bytes :=
    ready_atEnd hend hcontent
  have hclear : output.Clear library target codec := by
    refine ⟨rfl, hstreams.set hunknown _, hunknown, ?_, rfl, hready⟩
    rw [Streams.get_set, if_pos rfl]
    exact hhandle
  have hsave := saveAll_emitted hdocument hclear
  rw [hbytes] at hsave
  unfold save
  simp only [hsink]
  cases hwrite : write codec contents (streams.get target).bytes with
  | error error =>
    rw [hwrite] at hsave
    obtain ⟨state, hrun⟩ := hsave
    rw [hrun]
    exact ⟨_, rfl⟩
  | ok written =>
    rw [hwrite] at hsave
    obtain ⟨size, saved, output', hrun, rfl, hwritten⟩ := hsave
    rw [hrun]
    exact ⟨size, saved, output'.streams, rfl, hwritten⟩

/-- The saved form of a document is up to the contents that it shows. -/
theorem saveToBytes_verdict (hdocument : document.Shows library contents)
    (hstreams : streams.Holds library) (hscratch : library .scratch = none) :
    verdict (saveToBytes codec (document, streams)) = (write codec contents []).map Prod.snd := by
  have hsave :=
    @save_emitted library .scratch codec contents document { streams with scratch := {} } hdocument
    (hstreams.set hscratch {}) hscratch rfl 0
  have hempty : (Streams.get { streams with scratch := {} } .scratch).bytes = [] := rfl
  rw [hempty] at hsave
  unfold saveToBytes
  cases hwrite : write codec contents [] with
  | error error =>
    rw [hwrite] at hsave
    obtain ⟨state, hrun⟩ := hsave
    simp only [hrun]
    rfl
  | ok written =>
    rw [hwrite] at hsave
    obtain ⟨size, saved, streams', hrun, hbytes⟩ := hsave
    simp only [hrun]
    exact congrArg Except.ok hbytes

end Document
end FramedTree
