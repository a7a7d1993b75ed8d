import FramedTree.Proofs.Layout

/-! # How documents are stored

A document that is saved without failure adds to its stream the frames that its contents stand for,
whatever chunks the stream took them in. What had to be loaded on the way stays loaded, so that a
saved document is loaded as a whole.
-/

namespace FramedTree

variable {ν α : Type}

namespace Output

def bytes (output : Output) : Bytes := (output.streams.get output.target).bytes

/-- The handle and the sink both stand at the end of the stream. -/
structure Ready (output : Output) : Prop where
  position_eq : output.position = output.bytes.length
  sink_eq : output.sink.position = output.bytes.length

/-- More bytes have been written, and everything is ready for still more. -/
structure Extends (before after : Output) (more : Bytes) : Prop where
  target_eq : after.target = before.target
  codec_eq : after.sink.codec = before.sink.codec
  start_eq : after.sink.start = before.sink.start
  bytes_eq : after.bytes = before.bytes ++ more
  ready : after.Ready

theorem Extends.trans {first second third : Output} {more rest : Bytes}
    (h : Extends first second more) (h' : Extends second third rest) :
    Extends first third (more ++ rest) where
  target_eq := h'.target_eq.trans h.target_eq
  codec_eq := h'.codec_eq.trans h.codec_eq
  start_eq := h'.start_eq.trans h.start_eq
  bytes_eq := by rw [h'.bytes_eq, h.bytes_eq, List.append_assoc]
  ready := h'.ready

variable {output output' : Output}

private theorem extends_of_sameBytes {streams : Streams} (hready : output.Ready)
    (h : Streams.SameBytes output.streams streams) : Extends output { output with streams } [] := by
  have hbytes : bytes { output with streams } = output.bytes :=
    congrArg Array.toList (h output.target)
  refine ⟨rfl, rfl, rfl, ?_, ?_, ?_⟩
  · rw [hbytes, List.append_nil]
  · rw [hbytes]
    exact hready.position_eq
  · rw [hbytes]
    exact hready.sink_eq

/-- Whatever a sink does, it does to the target. -/
theorem emit_streams (activity : SinkIO α) (output : Output) :
    (stateAfter (emit activity output)).streams = output.streams.set output.target
      (stateAfter
        (activity (output.sink,
          ⟨output.streams.get output.target, output.position⟩))).2.stream := by
  unfold emit
  cases activity (output.sink, ⟨output.streams.get output.target, output.position⟩) <;> rfl

theorem emit_write_apply [Message α] (kind : FrameKind) (header : α) :
    emit (Sink.write kind header) output =
      match Frame.write output.sink.codec kind header
        ⟨output.streams.get output.target, output.position⟩ with
      | .ok size handle => .ok output.sink.position
        { output with
          streams := output.streams.set output.target handle.stream
          position := handle.position
          sink := { output.sink with
            position := output.sink.position + size
            frames := output.sink.frames + 1 } }
      | .error error handle => .error error
        { output with
          streams := output.streams.set output.target handle.stream
          position := handle.position } := by
  unfold emit Sink.write
  dsimp only
  cases Frame.write output.sink.codec kind header
    ⟨output.streams.get output.target, output.position⟩ <;> rfl

theorem emit_write_inv [Message α] {kind : FrameKind} {header : α} {position : Nat}
    (h : emit (Sink.write kind header) output = .ok position output') :
    ∃ size handle, Frame.write output.sink.codec kind header
      ⟨output.streams.get output.target, output.position⟩ =
        .ok size handle ∧
      position = output.sink.position ∧
      output' = { output with
        streams := output.streams.set output.target handle.stream
        position := handle.position
        sink := { output.sink with
          position := output.sink.position + size
          frames := output.sink.frames + 1 } } := by
  rw [emit_write_apply] at h
  cases hwrite : Frame.write output.sink.codec kind header
      ⟨output.streams.get output.target, output.position⟩ with
  | error error handle =>
    rw [hwrite] at h
    cases h
  | ok size handle =>
    rw [hwrite] at h
    cases h
    exact ⟨size, handle, rfl, rfl, rfl⟩

/-- A message that was written stands at the end. -/
theorem emit_write_ok [Message α] {kind : FrameKind} {header : α} {position : Nat}
    (hready : output.Ready) (h : emit (Sink.write kind header) output = .ok position output') :
    position = output.bytes.length ∧ ∃ frame,
      Frame.encode output.sink.codec kind header = .ok frame ∧
      Extends output output' frame := by
  obtain ⟨size, handle, hwrite, rfl, rfl⟩ := emit_write_inv h
  have hstart : Handle.AtEnd ⟨output.streams.get output.target, output.position⟩ :=
    hready.position_eq
  obtain ⟨frame, hencode, hsize, hend, hbytes⟩ := Frame.write_ok hstart hwrite
  have htarget : bytes { output with
      streams := output.streams.set output.target handle.stream
      position := handle.position
      sink := { output.sink with
        position := output.sink.position + size
        frames := output.sink.frames + 1 } } = output.bytes ++ frame := by
    rw [bytes, Streams.get_set, if_pos rfl]
    exact hbytes
  refine ⟨hready.sink_eq, frame, hencode, rfl, rfl, rfl, htarget, ?_, ?_⟩
  · rw [htarget, ← show handle.stream.bytes = output.bytes ++ frame from hbytes]
    exact hend
  · rw [htarget, List.length_append, ← hsize, ← hready.sink_eq]

private theorem write_ok [Message α] {header : α} {node node' : ν} {position : Nat}
    (hready : output.Ready) (h : write header (node, output) = .ok position (node', output')) :
    node' = node ∧ Scribe.frame output.sink.codec .nested header output.bytes =
      .ok (position, output'.bytes) ∧
      ∃ frame, Extends output output' frame := by
  rw [write, Access.lift_apply] at h
  obtain ⟨between, hemit, hstate⟩ := mapState_eq_ok h
  cases hstate
  obtain ⟨rfl, frame, hencode, hextends⟩ := emit_write_ok hready hemit
  refine ⟨rfl, ?_, frame, hextends⟩
  rw [Scribe.frame_eq hencode, hextends.bytes_eq]

end Output

/-- A value that was got from a cell is loaded afterwards. -/
theorem Lazy.access_node_ok {σ : Type} {load : Option Origin → EStateM Error σ α}
    {cell later : Lazy α} {value : α} {around after : σ}
    (h : Lazy.access load Access.node (cell, around) = .ok value (later, after)) :
    later.peek = some value ∧ cell.fetch load around = .ok value after := by
  cases hfetch : cell.fetch load around with
  | error error between =>
    rw [(Lazy.access_opens load Access.node).failed hfetch] at h
    cases h
  | ok found between =>
    obtain ⟨kept, -, hrun⟩ := (Lazy.access_opens load Access.node).fetched hfetch
    rw [hrun] at h
    cases h
    exact ⟨Lazy.peek_putBack _ _, rfl⟩

/-- A value that could not be got is still to be loaded. -/
theorem Lazy.access_node_failed {σ : Type} {load : Option Origin → EStateM Error σ α}
    {cell later : Lazy α} {around after : σ}
    (h : Lazy.access load Access.node (cell, around) = .error error (later, after)) :
    later = cell ∧ cell.peek = none ∧ load cell.origin around = .error error after := by
  cases hfetch : cell.fetch load around with
  | ok value between =>
    obtain ⟨kept, -, hrun⟩ := (Lazy.access_opens load Access.node).fetched hfetch
    rw [hrun] at h
    cases h
  | error found between =>
    rw [(Lazy.access_opens load Access.node).failed hfetch] at h
    cases h
    cases hpeek : cell.peek with
    | none =>
      rw [Lazy.fetch_of_unloaded hpeek] at hfetch
      exact ⟨rfl, rfl, hfetch⟩
    | some value =>
      rw [Lazy.fetch_of_peek hpeek] at hfetch
      cases hfetch

namespace Entry

variable {entry entry' : Entry} {streams streams' : Streams}

theorem onIdentification_ok {identity : Identity}
    (h : onIdentification Access.node (entry, streams) = .ok identity (entry', streams')) :
    Streams.SameBytes streams streams' ∧ ∃ cell : Lazy Identity, cell.peek = some identity ∧
      entry' = { entry with identification := cell } := by
  rw [onIdentification, Access.node_bind_apply, Access.within_apply] at h
  obtain ⟨⟨cell, between⟩, haccess, hstate⟩ := mapState_eq_ok h
  cases hstate
  obtain ⟨hpeek, hfetch⟩ := Lazy.access_node_ok haccess
  have hkeeps := Lazy.sameBytes_fetch (sameBytes_loadIdentity entry.stamp identificationField)
    entry.identification streams
  rw [hfetch] at hkeeps
  exact ⟨hkeeps, cell, hpeek, rfl⟩

theorem onSecretIdentity_ok {secret : Option Identity}
    (h : onSecretIdentity Access.node (entry, streams) = .ok secret (entry', streams')) :
    Streams.SameBytes streams streams' ∧ ∃ slots : Slots (Lazy Identity),
      Option.Rel (fun cell identity => cell.peek = some identity) (slots.get? singular) secret ∧
      entry' = { entry with secretIdentity := slots } := by
  rw [onSecretIdentity, Access.node_bind_apply, Access.within_apply] at h
  obtain ⟨⟨slots, between⟩, haccess, hstate⟩ := mapState_eq_ok h
  cases hstate
  cases hslot : entry.secretIdentity.get? singular with
  | none =>
    rw [Slots.access_apply_none hslot] at haccess
    cases haccess
    refine ⟨refl_of Streams.SameBytes streams, entry.secretIdentity, ?_, rfl⟩
    rw [hslot]
    exact .none
  | some cell =>
    rw [Slots.access_apply_some hslot, map_apply] at haccess
    cases hrun : Lazy.access (loadIdentity entry.stamp secretIdentityField) Access.node
      (cell, streams) with
    | error error state =>
      rw [hrun] at haccess
      cases haccess
    | ok identity state =>
      obtain ⟨later, streams''⟩ := state
      rw [hrun] at haccess
      cases haccess
      obtain ⟨hpeek, hfetch⟩ := Lazy.access_node_ok hrun
      have hkeeps :=
        Lazy.sameBytes_fetch (sameBytes_loadIdentity entry.stamp secretIdentityField) cell streams
      rw [hfetch] at hkeeps
      refine ⟨hkeeps, _, ?_, rfl⟩
      rw [Slots.get?_modify, if_pos rfl, hslot]
      exact .some hpeek

/-- A part of a saved entry that has to be loaded first. -/
theorem loading_ok {output output' : Output} {access : Access Streams Entry α} {value : α}
    (hready : output.Ready)
    (hsame : ∀ {streams'}, access (entry, output.streams) = .ok value (entry', streams') →
      Streams.SameBytes output.streams streams')
    (h : Output.loading access (entry, output) = .ok value (entry', output')) :
    Output.Extends output output' [] ∧ ∃ streams',
      access (entry, output.streams) = .ok value (entry', streams') := by
  rw [Output.loading, Access.around_apply] at h
  obtain ⟨⟨node, streams'⟩, haccess, hstate⟩ := mapState_eq_ok h
  cases hstate
  exact ⟨Output.extends_of_sameBytes hready (hsame haccess), streams', haccess⟩

end Entry

/-- The header of an entry is that of its content. -/
theorem Entry.toHeader_eq {entry : Entry} {content : EntryContent}
    (happrover : entry.approver.map NodeRef.path = content.approver)
    (hreviewers : entry.reviewers.map NodeRef.path = content.reviewers) (identification : Nat)
    (secretIdentity : Option Nat) :
    entry.toHeader identification secretIdentity =
      content.header identification secretIdentity := by
  rw [Entry.toHeader, EntryContent.header, ← happrover, ← hreviewers, Option.map_map, List.map_map]
  rfl

private theorem Output.write_secret_ok {node node' : ν} {output output' : Output}
    {secret : Option Identity} {position : Option Nat} (hready : output.Ready)
    (h : (secret.mapM fun identity => Output.write identity.header : Access Output ν (Option Nat))
      (node, output) = .ok position (node', output')) :
    node' = node ∧ (∃ more, Output.Extends output output' more) ∧
      ((secret.map Identity.header).mapM (Scribe.frame output.sink.codec .nested) : Scribe
        (Option Nat))
        output.bytes = .ok (position, output'.bytes) := by
  cases secret with
  | none =>
    cases h
    exact ⟨rfl, ⟨[], rfl, rfl, rfl, (List.append_nil _).symm, hready⟩, rfl⟩
  | some identity =>
    change (some <$> Output.write identity.header : Access Output ν (Option Nat))
      (node, output) = _ at h
    rw [map_apply] at h
    cases hwrite : Output.write identity.header (node, output) with
    | error error state =>
      rw [hwrite] at h
      cases h
    | ok start state =>
      rw [hwrite] at h
      cases h
      obtain ⟨hnode, hframe, hextends⟩ := Output.write_ok hready hwrite
      refine ⟨hnode, hextends, ?_⟩
      change (Scribe.frame output.sink.codec .nested identity.header >>=
        fun start => pure (some start)) _ = _
      rw [Scribe.bind_eq hframe]
      rfl

private theorem Entry.save_ok {entry entry' : Entry} {output output' : Output} {position : Nat}
    (hready : output.Ready) (h : Entry.save (entry, output) = .ok position (entry', output')) :
    ∃ content more, entry'.Has content ∧ Output.Extends output output' more ∧
      content.write output.sink.codec output.bytes = .ok (position, output'.bytes) := by
  rw [Entry.save] at h
  obtain ⟨identity, ⟨entry₁, output₁⟩, hidentity, h⟩ := bind_ok h
  obtain ⟨hextends₁, streams₁, hidentity⟩ := Entry.loading_ok hready
    (fun hrun => (Entry.onIdentification_ok hrun).1) hidentity
  obtain ⟨-, cell, hcell, rfl⟩ := Entry.onIdentification_ok hidentity
  obtain ⟨identification, ⟨entry₂, output₂⟩, hwrite, h⟩ := bind_ok h
  obtain ⟨rfl, hframe₂, frame₂, hextends₂⟩ := Output.write_ok hextends₁.ready hwrite
  obtain ⟨secret, ⟨entry₃, output₃⟩, hsecret, h⟩ := bind_ok h
  obtain ⟨hextends₃, streams₃, hsecret⟩ := Entry.loading_ok hextends₂.ready
    (fun hrun => (Entry.onSecretIdentity_ok hrun).1) hsecret
  obtain ⟨-, slots, hslots, rfl⟩ := Entry.onSecretIdentity_ok hsecret
  obtain ⟨secretIdentity, ⟨entry₄, output₄⟩, hwrite', h⟩ := bind_ok h
  obtain ⟨rfl, ⟨frame₄, hextends₄⟩, hframe₄⟩ := Output.write_secret_ok hextends₃.ready hwrite'
  rw [Access.node_bind_apply] at h
  obtain ⟨rfl, hframe₅, frame₅, hextends₅⟩ := Output.write_ok hextends₄.ready h
  let saved : Entry := { entry with identification := cell, secretIdentity := slots }
  have hhas : saved.Has (saved.contentWith identity secret) := Entry.has_contentWith hcell hslots
  -- Loading between the frames adds nothing, so that the frames follow each other.
  have hbytes₁ : output₁.bytes = output.bytes := by rw [hextends₁.bytes_eq, List.append_nil]
  have hbytes₃ : output₃.bytes = output₂.bytes := by rw [hextends₃.bytes_eq, List.append_nil]
  have hcodec₃ : output₃.sink.codec = output.sink.codec :=
    ((hextends₁.trans hextends₂).trans hextends₃).codec_eq
  rw [hextends₁.codec_eq, hbytes₁] at hframe₂
  rw [hcodec₃, hbytes₃] at hframe₄
  rw [hextends₄.codec_eq, hcodec₃, Entry.toHeader_eq hhas.approver hhas.reviewers] at hframe₅
  refine ⟨_, _, hhas,
    (((hextends₁.trans hextends₂).trans hextends₃).trans hextends₄).trans hextends₅, ?_⟩
  rw [EntryContent.write, Entry.contentWith_identification, Scribe.bind_eq hframe₂,
    Entry.contentWith_secretIdentity, Scribe.bind_eq hframe₄]
  exact hframe₅

namespace Document

abbrev Saved : List (Option (Lazy Entry)) → List EntryContent → Prop :=
  List.Forall₂ fun cell content => ∃ value entry, cell = some value ∧ value.peek = some entry ∧
    entry.Has content

/-- The loader that saving uses sees the streams of the output. -/
abbrev loadForSaving (stamp : Stamp) (i : Nat) : Option Origin → EStateM Error Output Entry :=
  Lazy.widen Output.streams (fun streams output => { output with streams }) (loadEntry stamp i)

theorem fetch_ok {stamp : Stamp} {i : Nat} {cell : Lazy Entry} {output output' : Output}
    {entry : Entry} (hready : output.Ready)
    (h : cell.fetch (loadForSaving stamp i) output = .ok entry output') :
    Output.Extends output output' [] := by
  cases hpeek : cell.peek with
  | some value =>
    rw [Lazy.fetch_of_peek hpeek] at h
    cases h
    exact ⟨rfl, rfl, rfl, (List.append_nil _).symm, hready⟩
  | none =>
    rw [Lazy.fetch_of_unloaded hpeek] at h
    obtain ⟨streams, hload, hstate⟩ := mapState_eq_ok h
    cases hstate
    have hsame := sameBytes_loadEntry stamp i cell.origin output.streams
    rw [hload] at hsame
    exact Output.extends_of_sameBytes hready hsame

/-- The cell of an entry that is saved. -/
theorem saveCell_ok {stamp : Stamp} {i : Nat} {cell cell' : Lazy Entry} {output output' : Output}
    {position : Nat} (hready : output.Ready)
    (h : Lazy.access (loadForSaving stamp i) Entry.save (cell, output) =
      .ok position (cell', output')) :
    ∃ content more entry, cell'.peek = some entry ∧ entry.Has content ∧
      Output.Extends output output' more ∧
      content.write output.sink.codec output.bytes = .ok (position, output'.bytes) := by
  cases hfetch : cell.fetch (loadForSaving stamp i) output with
  | error error between =>
    rw [(Lazy.access_opens _ _).failed hfetch] at h
    cases h
  | ok entry between =>
    have hextends := fetch_ok hready hfetch
    obtain ⟨kept, -, hrun⟩ := (Lazy.access_opens (loadForSaving stamp i) Entry.save).fetched hfetch
    rw [hrun] at h
    obtain ⟨⟨entry', output''⟩, hsave, hstate⟩ := mapState_eq_ok h
    cases hstate
    obtain ⟨content, more, hhas, hextends', hwrite⟩ := Entry.save_ok hextends.ready hsave
    rw [hextends.codec_eq, hextends.bytes_eq, List.append_nil] at hwrite
    exact ⟨content, _, entry', Lazy.peek_putBack _ _, hhas, hextends.trans hextends', hwrite⟩

private theorem saveFrom_ok {stamp : Stamp} {i : Nat} {cells cells' : List (Option (Lazy Entry))}
    {output output' : Output} {positions : List Nat} (hready : output.Ready)
    (hcells : ∀ cell ∈ cells, cell.isSome)
    (h : Slots.accessFrom (fun i => Lazy.access (loadForSaving stamp i) Entry.save) i cells output =
      .ok positions (cells', output')) :
    ∃ contents more, Saved cells' contents ∧ Output.Extends output output' more ∧
      writeEntries output.sink.codec contents output.bytes = .ok (positions, output'.bytes) := by
  induction cells generalizing i cells' output positions with
  | nil =>
    cases h
    exact ⟨[], [], .nil, ⟨rfl, rfl, rfl, (List.append_nil _).symm, hready⟩, rfl⟩
  | cons cell cells ih =>
    obtain ⟨value, rfl⟩ := Option.isSome_iff_exists.1 (hcells cell List.mem_cons_self)
    obtain ⟨position, later, between, others, cells', hfirst, hrest, rfl, rfl⟩ :=
      Slots.accessFrom_eq_ok h
    obtain ⟨content, more, entry, hpeek, hhas, hextends, hwrite⟩ := saveCell_ok hready hfirst
    obtain ⟨contents, rest, hsaved, hextends', hwrites⟩ := ih hextends.ready
      (fun cell hcell => hcells cell (List.mem_cons_of_mem _ hcell)) hrest
    rw [hextends.codec_eq] at hwrites
    refine ⟨content :: contents, more ++ rest, .cons ⟨later, entry, rfl, hpeek, hhas⟩ hsaved,
      hextends.trans hextends', ?_⟩
    rw [writeEntries, Scribe.bind_eq hwrite, Scribe.bind_eq hwrites]
    rfl

private theorem has_of_saved {stamp : Stamp} {cells : List (Option (Lazy Entry))}
    {contents : List EntryContent} (h : Saved cells contents) :
    Has ⟨stamp, ⟨cells.toArray⟩⟩ contents := by
  refine ⟨?_, fun i => ?_⟩
  · rw [Slots.size_ofCells, h.length_eq]
  · rw [Slots.get?_ofCells]
    induction h generalizing i with
    | nil => exact .none
    | cons hcell _ ih =>
      cases i with
      | zero =>
        obtain ⟨value, entry, rfl, hpeek, hhas⟩ := hcell
        exact .some ⟨entry, hpeek, hhas⟩
      | succ i => exact ih i

theorem saveEntries_ok {document document' : Document} {output output' : Output}
    {positions : List Nat} (hready : output.Ready)
    (hgaps : ∀ i < document.entryCount, (document.entries.get? i).isSome)
    (h : saveEntries (document, output) = .ok positions (document', output')) :
    ∃ contents more, document'.Has contents ∧ Output.Extends output output' more ∧
      writeEntries output.sink.codec contents output.bytes = .ok (positions, output'.bytes) := by
  rw [saveEntries_eq, onCells, Access.node_bind_apply, Access.within_apply,
    Slots.accessAll_apply] at h
  obtain ⟨state, hslots, hstate⟩ := mapState_eq_ok h
  obtain ⟨⟨cells, after⟩, hcells, rfl⟩ := mapState_eq_ok hslots
  cases hstate
  obtain ⟨contents, more, hsaved, hextends, hwrites⟩ := saveFrom_ok hready
    (Slots.isSome_of_mem_cells hgaps) hcells
  exact ⟨contents, more, has_of_saved hsaved, hextends, hwrites⟩

end Document

private theorem Sink.flush_ok {sink sink' : Sink} {handle handle' : Handle}
    (h : Sink.flush (sink, handle) = .ok () (sink', handle')) :
    sink' = sink ∧ handle'.stream.content = handle.stream.content := by
  unfold Sink.flush Handle.flush at h
  dsimp only at h
  cases hfault : handle.stream.faults.flush.filter (·.isActive) with
  | none =>
    rw [hfault] at h
    cases h
    exact ⟨rfl, rfl⟩
  | some fault =>
    rw [hfault] at h
    dsimp only at h
    cases heffect : fault.effect with
    | fail error =>
      rw [heffect] at h
      cases h
    | stall =>
      rw [heffect] at h
      cases h
      exact ⟨rfl, rfl⟩

namespace Sink

variable {state after : Sink × Handle}

theorem write_ok [Message α] {kind : FrameKind} {message : α} {given : Nat} (hend : state.2.AtEnd)
    (h : write kind message state = .ok given after) :
    given = state.1.position ∧ ∃ frame, Frame.encode state.1.codec kind message = .ok frame ∧
      after.1 =
        { state.1 with position := state.1.position + frame.length, frames := state.1.frames + 1 } ∧
      after.2.AtEnd ∧ after.2.stream.bytes = state.2.stream.bytes ++ frame := by
  obtain ⟨sink, handle⟩ := state
  unfold write at h
  dsimp only at h
  cases hwrite : Frame.write sink.codec kind message handle with
  | error error last =>
    rw [hwrite] at h
    cases h
  | ok size last =>
    rw [hwrite] at h
    cases h
    obtain ⟨frame, hencode, rfl, hlast, hbytes⟩ := Frame.write_ok hend hwrite
    exact ⟨rfl, frame, hencode, rfl, hlast, hbytes⟩

/-- The root frame comes last, and all bytes from the start of the sink on count. -/
theorem finish_ok [Message α] {message : α} {total : Nat} (hend : state.2.AtEnd)
    (h : finish message state = .ok total after) :
    ∃ frame, Frame.encode state.1.codec .root message = .ok frame ∧
      after.2.stream.bytes = state.2.stream.bytes ++ frame ∧
      total = state.1.position + frame.length - state.1.start := by
  rw [finish, discard_bind] at h
  obtain ⟨given, between, hwrite, h⟩ := bind_ok h
  obtain ⟨done, ⟨sink, handle⟩, hflush, h⟩ := bind_ok h
  cases h
  obtain ⟨-, frame, hencode, hsink, -, hbytes⟩ := write_ok hend hwrite
  obtain ⟨rfl, hcontent⟩ := flush_ok hflush
  refine ⟨frame, hencode, ?_, ?_⟩
  · rw [← hbytes]
    exact congrArg Array.toList hcontent
  · rw [hsink]

end Sink

/-- The root frame comes last, and the number of bytes is counted from where the sink started. -/
theorem Output.emit_finish_ok [Message α] {header : α} {output output' : Output} {size : Nat}
    (hready : output.Ready) (h : Output.emit (Sink.finish header) output = .ok size output') :
    ∃ frame, Frame.encode output.sink.codec .root header = .ok frame ∧
      output'.bytes = output.bytes ++ frame ∧ output'.target = output.target ∧
      size = output.bytes.length + frame.length - output.sink.start := by
  unfold Output.emit at h
  dsimp only at h
  cases hfinish : Sink.finish header
      (output.sink, ⟨output.streams.get output.target, output.position⟩) with
  | error error state =>
    rw [hfinish] at h
    cases h
  | ok count state =>
    rw [hfinish] at h
    cases h
    have hend : Handle.AtEnd ⟨output.streams.get output.target, output.position⟩ :=
      hready.position_eq
    obtain ⟨frame, hencode, hbytes, rfl⟩ := Sink.finish_ok hend hfinish
    refine ⟨frame, hencode, ?_, rfl, ?_⟩
    · rw [Output.bytes, Streams.get_set, if_pos rfl]
      exact hbytes
    · rw [← hready.sink_eq]

namespace Document

/-- A handle that has been sent to the end of a stream, whatever the stream did to it. -/
theorem atEnd_ok {codec : Codec} {handle handle' : Handle} {sink : Sink}
    (h : Sink.atEnd codec handle = .ok sink handle') :
    sink = Sink.startingAt codec handle.stream.content.size ∧ handle'.AtEnd ∧
      handle'.stream.content = handle.stream.content := by
  rw [Sink.atEnd] at h
  obtain ⟨position, between, hseek, hsink⟩ := bind_ok h
  cases hsink
  have hseek := Transfer.toFrameIO_eq_ok hseek
  unfold Handle.seek at hseek
  dsimp only at hseek
  cases hfault : handle.stream.faults.seek.filter (·.isActive) with
  | none =>
    rw [hfault] at hseek
    cases hseek
    exact ⟨rfl, rfl, rfl⟩
  | some fault =>
    rw [hfault] at hseek
    dsimp only at hseek
    by_cases hstart : 0 < fault.start
    · rw [if_pos hstart] at hseek
      cases hseek
      exact ⟨rfl, rfl, rfl⟩
    · rw [if_neg hstart] at hseek
      cases heffect : fault.effect with
      | fail error =>
        rw [heffect] at hseek
        cases hseek
      | stall =>
        rw [heffect] at hseek
        cases hseek
        exact ⟨rfl, rfl, rfl⟩

private theorem saveAll_ok {document saved : Document} {output output' : Output} {size : Nat}
    (hready : output.Ready) (hstart : output.sink.start = output.bytes.length)
    (hgaps : ∀ i < document.entryCount, (document.entries.get? i).isSome)
    (h : saveAll (document, output) = .ok size (saved, output')) :
    ∃ contents written, saved.Has contents ∧ written.length = size ∧
      output'.target = output.target ∧
      output'.bytes = output.bytes ++ written ∧
      write output.sink.codec contents output.bytes = .ok ((), output'.bytes) := by
  rw [saveAll] at h
  obtain ⟨positions, ⟨between, output₁⟩, hentries, hfinish⟩ := bind_ok h
  obtain ⟨contents, more, hhas, hextends, hwrites⟩ := saveEntries_ok hready hgaps hentries
  rw [Access.lift_apply] at hfinish
  obtain ⟨output₂, hemit, hstate⟩ := mapState_eq_ok hfinish
  cases hstate
  obtain ⟨frame, hencode, hbytes, htarget, hsize⟩ := Output.emit_finish_ok hextends.ready hemit
  rw [hextends.codec_eq] at hencode
  refine ⟨contents, more ++ frame, hhas, ?_, htarget.trans hextends.target_eq, ?_, ?_⟩
  · rw [hsize, hextends.start_eq, hstart, hextends.bytes_eq]
    simp only [List.length_append]
    omega
  · rw [hbytes, hextends.bytes_eq, List.append_assoc]
  · rw [write, Scribe.bind_eq hwrites, hbytes]
    rw [Scribe.discard_apply, Scribe.frame_eq hencode]

/-- A sink that has been made for the end of a stream is ready. -/
theorem ready_atEnd {codec : Codec} {target : StreamId} {streams : Streams} {handle : Handle}
    (hend : handle.AtEnd) (hcontent : handle.stream.content = (streams.get target).content) :
    let output : Output := ⟨streams.set target handle.stream, target, handle.position,
      Sink.startingAt codec (streams.get target).content.size⟩
    output.Ready ∧ output.bytes = (streams.get target).bytes := by
  intro output
  have hbytes : output.bytes = (streams.get target).bytes := by
    rw [Output.bytes, Streams.get_set, if_pos rfl]
    exact congrArg Array.toList hcontent
  refine ⟨⟨?_, ?_⟩, hbytes⟩
  · rw [Output.bytes, Streams.get_set, if_pos rfl]
    exact hend
  · rw [hbytes]
    exact Array.length_toList.symm

/-- A document that was saved without failure is loaded as a whole, and the frames of its contents
have been added to what the stream held before. -/
theorem save_writes {codec : Codec} {target : StreamId} {position size : Nat}
    {document saved : Document} {streams streams' : Streams}
    (hgaps : ∀ i < document.entryCount, (document.entries.get? i).isSome)
    (h : save codec target position (document, streams) = .ok size (saved, streams')) :
    ∃ contents written, saved.Has contents ∧ written.length = size ∧
      (streams'.get target).bytes = (streams.get target).bytes ++ written ∧
      write codec contents (streams.get target).bytes = .ok ((), (streams'.get target).bytes) := by
  unfold save at h
  cases hsink : Sink.atEnd codec ⟨streams.get target, position⟩ with
  | error error handle =>
    simp only [hsink] at h
    cases h
  | ok sink handle =>
    simp only [hsink] at h
    obtain ⟨rfl, hend, hcontent⟩ := atEnd_ok hsink
    cases hsave : saveAll (document, (⟨streams.set target handle.stream, target, handle.position,
        Sink.startingAt codec (streams.get target).content.size⟩ : Output)) with
    | error error state =>
      rw [hsave] at h
      cases h
    | ok count state =>
      obtain ⟨last, output⟩ := state
      rw [hsave] at h
      cases h
      obtain ⟨hready, hbytes⟩ := ready_atEnd hend hcontent
      obtain ⟨contents, written, hhas, hlength, htarget, hwritten, hwrite⟩ :=
        saveAll_ok hready hready.sink_eq hgaps hsave
      rw [hbytes] at hwritten hwrite
      dsimp only at htarget
      subst htarget
      exact ⟨contents, written, hhas, hlength, hwritten, hwrite⟩

/-- A document that was saved without failure is stored in its stream, behind what the stream held
before. -/
theorem save_ok {codec : Codec} {target : StreamId} {position size : Nat}
    {document saved : Document} {streams streams' : Streams}
    (hgaps : ∀ i < document.entryCount, (document.entries.get? i).isSome)
    (h : save codec target position (document, streams) = .ok size (saved, streams')) :
    ∃ contents written, saved.Has contents ∧ written.length = size ∧
      (streams'.get target).bytes = (streams.get target).bytes ++ written ∧
      StoredIn codec contents (streams'.get target).bytes := by
  obtain ⟨contents, written, hhas, hlength, hwritten, hwrite⟩ := save_writes hgaps h
  exact ⟨contents, written, hhas, hlength, hwritten, storedIn_of_write hwrite⟩

end Document

/-- The same identity, which may have been loaded meanwhile. -/
abbrev Lazy.Fills : Lazy Identity → Lazy Identity → Prop := Lazy.Grows (fun _ => True) Eq

namespace Entry

structure Fills (before after : Entry) : Prop where
  stamp_eq : after.stamp = before.stamp
  approver_eq : after.approver = before.approver
  reviewers_eq : after.reviewers = before.reviewers
  identification : before.identification.Fills after.identification
  hasSecretIdentity_eq : after.hasSecretIdentity = before.hasSecretIdentity
  secretIdentity : ∀ cell, before.secretIdentity.get? singular = some cell →
    ∃ later, after.secretIdentity.get? singular = some later ∧ cell.Fills later

instance : IsPreorder Entry Fills where
  refl entry :=
    ⟨rfl, rfl, rfl, refl_of Lazy.Fills _, rfl, fun cell h => ⟨cell, h, refl_of Lazy.Fills cell⟩⟩
  trans a b c hab hbc := by
    refine ⟨hbc.stamp_eq.trans hab.stamp_eq, hbc.approver_eq.trans hab.approver_eq,
      hbc.reviewers_eq.trans hab.reviewers_eq,
      trans_of Lazy.Fills hab.identification hbc.identification,
      hbc.hasSecretIdentity_eq.trans hab.hasSecretIdentity_eq, fun cell h => ?_⟩
    obtain ⟨between, hbetween, hfirst⟩ := hab.secretIdentity cell h
    obtain ⟨later, hlater, hsecond⟩ := hbc.secretIdentity between hbetween
    exact ⟨later, hlater, trans_of Lazy.Fills hfirst hsecond⟩

theorem fills_onIdentification : Keeps (OnNode Fills) (onIdentification Access.node) :=
  Keeps.node_within
    (fun _ => Keeps.opens (Lazy.access_opens _ _) (fun _ _ _ _ _ => trivial) Keeps.node)
    fun _ _ hcell => ⟨rfl, rfl, rfl, hcell, rfl, fun cell h => ⟨cell, h, refl_of Lazy.Fills cell⟩⟩

private theorem fills_onSecretIdentity : Keeps (OnNode Fills) (onSecretIdentity Access.node) := by
  refine Keeps.node_within (fun _ => Keeps.slot (Q := fun _ => Lazy.Fills)
    (Keeps.opens (Lazy.access_opens _ _) (fun _ _ _ _ _ => trivial) Keeps.node))
    fun entry slots hslots => ?_
  have hslot : Option.Rel Lazy.Fills (entry.secretIdentity.get? singular) (slots.get? singular) :=
    hslots.slot singular
  refine ⟨rfl, rfl, rfl, refl_of Lazy.Fills _, ?_, ?_⟩
  · simp only [hasSecretIdentity]
    generalize entry.secretIdentity.get? singular = before at hslot ⊢
    generalize slots.get? singular = after at hslot ⊢
    cases hslot <;> rfl
  · intro cell hcell
    rw [hcell] at hslot
    generalize slots.get? singular = after at hslot ⊢
    cases hslot with
    | some hfills => exact ⟨_, rfl, hfills⟩

theorem fills_secretAndEntry : Keeps (OnNode Fills) secretAndEntry :=
  Keeps.bind fills_onSecretIdentity fun _ => Keeps.bind Keeps.node fun _ => Keeps.pure _

private theorem fills_save : Keeps (OnNode Fills) save := by
  refine Keeps.bind (Keeps.around fills_onIdentification) fun identity => ?_
  refine Keeps.bind (Keeps.lift _) fun _ => ?_
  refine Keeps.bind (Keeps.around fills_onSecretIdentity) fun secret => ?_
  refine Keeps.bind ?_ fun _ => Keeps.bind Keeps.node fun _ => Keeps.lift _
  cases secret with
  | none => exact Keeps.pure none
  | some secret => exact Keeps.map some (Keeps.lift _)

end Entry

namespace Document

structure Fills (before after : Document) : Prop where
  stamp_eq : after.stamp = before.stamp
  entryCount_eq : after.entryCount = before.entryCount
  entry : ∀ i entry, before.entryAt? i = some entry → ∃ later,
    after.entryAt? i = some later ∧ entry.Fills later

instance : IsPreorder Document Fills where
  refl document := ⟨rfl, rfl, fun _ entry h => ⟨entry, h, refl_of Entry.Fills entry⟩⟩
  trans a b c hab hbc := by
    refine ⟨hbc.stamp_eq.trans hab.stamp_eq, hbc.entryCount_eq.trans hab.entryCount_eq,
      fun i entry h => ?_⟩
    obtain ⟨between, hbetween, hfirst⟩ := hab.entry i entry h
    obtain ⟨later, hlater, hsecond⟩ := hbc.entry i between hbetween
    exact ⟨later, hlater, trans_of Entry.Fills hfirst hsecond⟩

private theorem fills_entries {document : Document} {slots : Slots (Lazy Entry)}
    (h : Slots.Pointwise (fun _ => Lazy.Grows (fun _ => True) Entry.Fills) document.entries slots) :
    Fills document { document with entries := slots } := by
  refine ⟨rfl, h.size_eq, fun i entry hentry => ?_⟩
  have hslot := h.slot i
  rw [entryAt?] at hentry ⊢
  generalize document.entries.get? i = before at hslot hentry
  generalize slots.get? i = after at hslot ⊢
  cases hslot with
  | none => cases hentry
  | some hgrows => exact hgrows.kept entry hentry

theorem fills_onEntry (i : Nat) {inner : Access Streams Entry α}
    (h : Keeps (OnNode Entry.Fills) inner) :
    Keeps (OnNode Fills) (onEntry i inner) :=
  Keeps.node_within (fun _ => Keeps.slot (Q := fun _ => Lazy.Grows (fun _ => True) Entry.Fills)
    (Keeps.opens (Lazy.access_opens _ _) (fun _ _ _ _ _ => trivial) h)) fun _ _ => fills_entries

theorem fills_entryList : Keeps (OnNode Fills) entryList :=
  Keeps.node_within (fun _ => Keeps.accessAll fun _ =>
    Keeps.opens (Lazy.access_opens _ _) (fun _ _ _ _ _ => trivial) Keeps.node) fun _ _ =>
      fills_entries

private theorem fills_saveAll : Keeps (OnNode Fills) saveAll := by
  refine Keeps.bind ?_ fun _ => Keeps.lift _
  rw [saveEntries_eq]
  exact Keeps.node_within (fun _ => Keeps.accessAll fun _ =>
    Keeps.opens (Lazy.access_opens _ _) (fun _ _ _ _ _ => trivial) Entry.fills_save) fun _ _ =>
      fills_entries

/-- Saving loads what has to be loaded and leaves the document otherwise as it is. -/
theorem fills_save (codec : Codec) (target : StreamId) (position : Nat) :
    Keeps (OnNode Fills) (save codec target position) :=
      keeps_of_saveAll fills_saveAll codec target position

end Document
end FramedTree
