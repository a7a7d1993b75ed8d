import FramedTree.Proofs.Saving

/-! # What a failed save leaves

A save that fails has written whole frames, in the order in which a save writes them, and of the
frame that was due next at most a part. Only a stream that refuses bytes cuts a frame short: a node
that cannot be loaded, or a message that is too large for a frame, stops the save between two
frames.
-/

namespace FramedTree

variable {ν α β : Type} {codec : Codec} {target : StreamId} {error : Error}

private theorem bind_failed {ε σ : Type} {activity : EStateM ε σ α} {next : α → EStateM ε σ β}
    {state after : σ} {error : ε} (h : (activity >>= next) state = .error error after) :
    activity state = .error error after ∨
      ∃ value between, activity state = .ok value between ∧
        next value between = .error error after := by
  rw [bind_apply] at h
  cases hrun : activity state with
  | error found between =>
    rw [hrun] at h
    cases h
    exact .inl rfl
  | ok value between =>
    rw [hrun] at h
    exact .inr ⟨value, between, rfl, h⟩

section Writing

variable {handle after : Handle} {cause : IoError}

private theorem Handle.write_error_atEnd {data : Bytes} (hend : handle.AtEnd)
    (h : Handle.write data handle = .error cause after) :
    after.AtEnd ∧ after.stream.bytes = handle.stream.bytes := by
  obtain ⟨hposition, hcontent⟩ := Handle.write_error h
  constructor
  · rw [Handle.AtEnd, hposition, hcontent]
    exact hend
  · exact congrArg Array.toList hcontent

private theorem Handle.retrying_write_error {data : Bytes} {patience : Nat} (hend : handle.AtEnd)
    (h : Transfer.retrying (Handle.write data) patience handle = .error cause after) :
    after.AtEnd ∧ after.stream.bytes = handle.stream.bytes := by
  induction patience generalizing handle with
  | zero => exact Handle.write_error_atEnd hend h
  | succ patience ih =>
    unfold Transfer.retrying at h
    cases hwrite : Handle.write data handle with
    | ok value between =>
      rw [hwrite] at h
      cases h
    | error found between =>
      obtain ⟨hbetween, hbytes⟩ := Handle.write_error_atEnd hend hwrite
      rw [hwrite] at h
      dsimp only at h
      split at h
      case isTrue =>
        rw [← hbytes]
        exact ih hbetween h
      case isFalse =>
        cases h
        exact ⟨hbetween, hbytes⟩

/-- What was written before a failure stays, and it is not everything. -/
theorem Handle.pour_error {data : Bytes} {calls : Nat} (hend : handle.AtEnd)
    (h : Handle.pour calls data handle = .error cause after) :
    after.AtEnd ∧ ∃ part, part <+: data ∧ part.length < data.length ∧
      after.stream.bytes = handle.stream.bytes ++ part := by
  induction calls generalizing handle data with
  | zero => cases h
  | succ calls ih =>
    by_cases hempty : data.isEmpty
    · rw [Handle.pour, if_pos hempty] at h
      cases h
    · rw [Handle.pour, if_neg hempty] at h
      have hlength : 0 < data.length :=
        List.length_pos_iff.2 fun hnil => hempty (List.isEmpty_iff.2 hnil)
      rcases bind_failed h with hwrite | ⟨taken, between, hwrite, hrest⟩
      · obtain ⟨hafter, hbytes⟩ := Handle.retrying_write_error hend hwrite
        refine ⟨hafter, [], List.nil_prefix, hlength, ?_⟩
        rw [hbytes, List.append_nil]
      · obtain ⟨hbetween, hbytes⟩ := Handle.retrying_write_ok hend hwrite
        by_cases htaken : taken = 0
        · rw [if_pos htaken] at hrest
          cases hrest
          refine ⟨hbetween, [], List.nil_prefix, hlength, ?_⟩
          rw [hbytes, htaken, List.take_zero]
        · rw [if_neg htaken] at hrest
          obtain ⟨hafter, part, hprefix, hshort, hall⟩ := ih hbetween hrest
          refine ⟨hafter, data.take taken ++ part, ?_, ?_, ?_⟩
          · have hjoined := (List.prefix_append_right_inj (data.take taken)).2 hprefix
            rwa [List.take_append_drop] at hjoined
          · rw [List.length_append, List.length_take]
            rw [List.length_drop] at hshort
            omega
          · rw [hall, hbytes, List.append_assoc]

/-- A frame is not written because its message cannot be encoded, or because the stream does not
take it. -/
theorem Frame.write_error [Message α] {kind : FrameKind} {value : α}
    (h : Frame.write codec kind value handle = .error error after) :
    (Frame.encode codec kind value = .error error ∧ after = handle) ∨
      ∃ frame cause, Frame.encode codec kind value = .ok frame ∧ error = .io cause ∧
        Handle.writeAll frame handle = .error cause after := by
  cases hencode : Frame.encode codec kind value with
  | error refused =>
    rw [Frame.write_refused hencode] at h
    cases h
    exact .inl ⟨rfl, rfl⟩
  | ok frame =>
    rw [Frame.write_of_encode hencode] at h
    rcases bind_failed h with hwrite | ⟨_, _, _, hdone⟩
    · obtain ⟨cause, rfl, hpour⟩ := Transfer.toFrameIO_eq_error hwrite
      exact .inr ⟨frame, cause, rfl, rfl, hpour⟩
    · cases hdone

end Writing

/-- What a save turns to next: the end of the stream has to be found, a node has to be loaded, or a
frame has to be written if its message can be encoded. -/
inductive Due where
  | seek
  | node (load : Load Unit)
  | frame (kind : FrameKind) (encoded : Except Error Bytes)

/-- A save stops at what is due. The bytes of its target are known up to there, and part of the
frame that was due may follow; `streams` are the streams that are left. -/
inductive Due.Stops (target : StreamId) (error : Error) (streams : Streams) (bytes : Bytes) :
    Due → Bytes → Prop where
  | seek (handle : Handle) (position : Nat) {cause : IoError} (herror : error = .io cause)
      (hseek : Handle.seek (.fromEnd 0) handle = .error cause ⟨streams.get target, position⟩) :
      Stops target error streams bytes .seek []
  | node {load : Load Unit} {before : Streams} (hload : load before = .error error streams)
      (hsame : before.SameBytes streams) : Stops target error streams bytes (.node load) []
  | refused {kind : FrameKind} : Stops target error streams bytes (.frame kind (.error error)) []
  | torn {kind : FrameKind} {frame part : Bytes} (handle : Handle) (position : Nat)
      {cause : IoError}
      (herror : error = .io cause) (hbytes : handle.stream.bytes = bytes)
      (hwrite : Handle.writeAll frame handle = .error cause ⟨streams.get target, position⟩)
      (hpart : part <+: frame) (hshort : part.length < frame.length) :
      Stops target error streams bytes (.frame kind (.ok frame)) part
  | unflushed {frame : Bytes} (handle : Handle) (position : Nat) {cause : IoError}
      (herror : error = .io cause)
      (hbytes : handle.stream.bytes = bytes ++ frame)
      (hflush : Handle.flush handle = .error cause ⟨streams.get target, position⟩) :
      Stops target error streams bytes (.frame .root (.ok frame)) frame

namespace Output

/-- A save that has stopped: the frames that were written fill the bytes that were added, up to what
was due. -/
structure Broke (error : Error) (before after : Output) (frames : List Placed) (due : Due) :
    Prop where
  target_eq : after.target = before.target
  left : ∃ body part, after.bytes = before.bytes ++ body ++ part ∧
    Tiles before.sink.codec before.bytes.length frames body ∧
    due.Stops before.target error after.streams (before.bytes ++ body) part

variable {first second third : Output} {frames started : List Placed} {due : Due} {more : Bytes}

private theorem Broke.behind (h : Broke error second third started due)
    (hextends : Extends first second more)
    (htiles : Tiles first.sink.codec first.bytes.length frames more) :
    Broke error first third (frames ++ started) due := by
  obtain ⟨body, part, hbytes, hstarted, hstops⟩ := h.left
  have hlength : second.bytes.length = first.bytes.length + more.length := by
    rw [hextends.bytes_eq, List.length_append]
  rw [hextends.codec_eq, hlength] at hstarted
  rw [hextends.bytes_eq, hextends.target_eq, List.append_assoc] at hstops
  refine ⟨h.target_eq.trans hextends.target_eq, more ++ body, part, ?_,
    htiles.append hstarted, hstops⟩
  rw [hbytes, hextends.bytes_eq, List.append_assoc first.bytes]

private theorem Broke.behind_nothing (h : Broke error second third started due)
    (hextends : Extends first second []) :
    Broke error first third started due := by
  have hnothing : Tiles first.sink.codec first.bytes.length [] [] := rfl
  exact h.behind hextends hnothing

variable {output output' : Output}

private theorem broke_node {load : Load Unit} {streams : Streams}
    (hload : load output.streams = .error error streams)
    (hsame : output.streams.SameBytes streams) :
    Broke error output { output with streams } [] (.node load) := by
  refine ⟨rfl, [], [], ?_, rfl, .node hload hsame⟩
  rw [List.append_nil, List.append_nil]
  exact congrArg Array.toList (hsame output.target)

theorem emit_write_failed [Message α] {kind : FrameKind} {header : α} (hready : output.Ready)
    (h : emit (Sink.write kind header) output = .error error output') :
    Broke error output output' [] (.frame kind (Frame.encode output.sink.codec kind header)) := by
  rw [emit_write_apply] at h
  cases hwrite : Frame.write output.sink.codec kind header
      ⟨output.streams.get output.target, output.position⟩ with
  | ok size handle =>
    rw [hwrite] at h
    cases h
  | error found handle =>
    rw [hwrite] at h
    cases h
    have htarget : (output.streams.set output.target handle.stream).get output.target =
      handle.stream := by
      rw [Streams.get_set, if_pos rfl]
    rcases Frame.write_error hwrite with ⟨hencode, rfl⟩ | ⟨frame, cause, hencode, herror, hpour⟩
    · rw [hencode]
      refine ⟨rfl, [], [], ?_, rfl, .refused⟩
      rw [List.append_nil, List.append_nil, bytes, htarget]
      rfl
    · rw [hencode]
      have hend : Handle.AtEnd ⟨output.streams.get output.target, output.position⟩ :=
        hready.position_eq
      obtain ⟨-, part, hpart, hshort, hbytes⟩ := Handle.pour_error hend hpour
      refine ⟨rfl, [], part, ?_, rfl, ?_⟩
      · rw [List.append_nil, bytes, htarget]
        exact hbytes
      · rw [List.append_nil]
        refine .torn ⟨output.streams.get output.target,
          output.position⟩ handle.position herror rfl ?_ hpart hshort
        rw [htarget]
        exact hpour

private theorem write_frame [Message α] {header : α} {node node' : ν} {position : Nat}
    (hready : output.Ready) (h : write header (node, output) = .ok position (node', output')) :
    node' = node ∧ position = output.bytes.length ∧ ∃ frame,
      Frame.encode output.sink.codec .nested header = .ok frame ∧ Extends output output' frame := by
  rw [write, Access.lift_apply] at h
  obtain ⟨between, hemit, hstate⟩ := mapState_eq_ok h
  cases hstate
  exact ⟨rfl, emit_write_ok hready hemit⟩

private theorem write_failed [Message α] {header : α} {node node' : ν} (hready : output.Ready)
    (h : write header (node, output) = .error error (node', output')) :
    node' = node ∧ Broke error output output' []
      (.frame .nested (Frame.encode output.sink.codec .nested header)) := by
  rw [write, Access.lift_apply] at h
  obtain ⟨between, hemit, hstate⟩ := mapState_eq_error h
  cases hstate
  exact ⟨rfl, emit_write_failed hready hemit⟩

end Output

private theorem discard_failed {ε σ : Type} {activity : EStateM ε σ α} {state after : σ} {error : ε}
    (h : activity state = .error error after) : discard activity state = .error error after := by
  rw [discard_apply, h]

namespace Entry

variable {entry entry' : Entry} {output output' : Output} {started : List Placed} {due : Due}

/-- How far an entry has been saved: which of its frames have been written, and what is due next.
What is due may be a node that is still to be loaded; all that was needed before is loaded. -/
inductive Underway (codec : Codec) (entry : Entry) : List Placed → Due → Prop where
  | identification (hpeek : entry.identification.peek = none) :
      Underway codec entry []
        (.node (discard (loadIdentity entry.stamp identificationField entry.identification.origin)))
  | identificationFrame {identity : Identity} (hpeek : entry.identification.peek = some identity) :
      Underway codec entry [] (.frame .nested (Frame.encode codec .nested identity.header))
  | secretIdentity {start : Nat} {identity : Identity} {cell : Lazy Identity}
      (hpeek : entry.identification.peek = some identity)
      (hcell : entry.secretIdentity.get? singular = some cell)
      (hunread : cell.peek = none) :
      Underway codec entry [⟨start, .identity identity.header⟩]
        (.node (discard (loadIdentity entry.stamp secretIdentityField cell.origin)))
  | secretFrame {start : Nat} {identity secret : Identity} {cell : Lazy Identity}
      (hpeek : entry.identification.peek = some identity)
      (hcell : entry.secretIdentity.get? singular = some cell)
      (hsecret : cell.peek = some secret) :
      Underway codec entry [⟨start, .identity identity.header⟩]
        (.frame .nested (Frame.encode codec .nested secret.header))
  | header {block : Block} (hhas : entry.Has block.content) :
      Underway codec entry block.frames.dropLast
        (.frame .nested (Frame.encode codec .nested block.header))

private theorem identification_failed (h : Output.loading (onIdentification Access.node)
    (entry, output) =
      .error error (entry', output')) :
    entry'.Underway codec []
      (.node (discard (loadIdentity entry.stamp identificationField entry.identification.origin))) ∧
      Output.Broke error output output' []
        (.node (discard
          (loadIdentity entry.stamp identificationField entry.identification.origin))) := by
  rw [Output.loading, Access.around_apply] at h
  obtain ⟨⟨later, streams⟩, haccess, hstate⟩ := mapState_eq_error h
  cases hstate
  rw [onIdentification, Access.node_bind_apply, Access.within_apply] at haccess
  obtain ⟨⟨cell, between⟩, hcell, hstate⟩ := mapState_eq_error haccess
  cases hstate
  obtain ⟨rfl, hpeek, hload⟩ := Lazy.access_node_failed hcell
  have hsame :=
    sameBytes_loadIdentity entry.stamp identificationField entry.identification.origin
      output.streams
  rw [hload] at hsame
  exact ⟨.identification hpeek, Output.broke_node (discard_failed hload) hsame⟩

private theorem secretIdentity_failed (h : Output.loading (onSecretIdentity Access.node)
    (entry, output) =
      .error error (entry', output')) :
    ∃ cell, entry'.secretIdentity.get? singular = some cell ∧ cell.peek = none ∧
      entry'.identification = entry.identification ∧
      Output.Broke error output output' []
        (.node (discard (loadIdentity entry'.stamp secretIdentityField cell.origin))) := by
  rw [Output.loading, Access.around_apply] at h
  obtain ⟨⟨later, streams⟩, haccess, hstate⟩ := mapState_eq_error h
  cases hstate
  rw [onSecretIdentity, Access.node_bind_apply, Access.within_apply] at haccess
  obtain ⟨⟨slots, between⟩, hslots, hstate⟩ := mapState_eq_error haccess
  cases hstate
  cases hslot : entry.secretIdentity.get? singular with
  | none =>
    rw [Slots.access_apply_none hslot] at hslots
    cases hslots
  | some cell =>
    rw [Slots.access_apply_some hslot] at hslots
    obtain ⟨⟨later, last⟩, hmap, hstate⟩ := mapState_eq_error hslots
    cases hstate
    rcases bind_failed hmap with hcell | ⟨_, _, _, hdone⟩
    · obtain ⟨rfl, hpeek, hload⟩ := Lazy.access_node_failed hcell
      have hsame :=
        sameBytes_loadIdentity entry.stamp secretIdentityField later.origin output.streams
      rw [hload] at hsame
      refine ⟨later, ?_, hpeek, rfl, Output.broke_node (discard_failed hload) hsame⟩
      rw [Slots.get?_modify, if_pos rfl, hslot]
      rfl
    · cases hdone

private theorem write_secret_failed {node node' : ν} {secret : Option Identity}
    (hready : output.Ready)
    (h : (secret.mapM fun identity => Output.write identity.header : Access Output ν (Option Nat))
      (node, output) =
      .error error (node', output')) :
    ∃ identity, secret = some identity ∧ node' = node ∧ Output.Broke error output output' []
      (.frame .nested (Frame.encode output.sink.codec .nested identity.header)) := by
  cases secret with
  | none => cases h
  | some identity =>
    change (some <$> Output.write identity.header : Access Output ν (Option Nat))
      (node, output) = _ at h
    rcases bind_failed h with hfailed | ⟨_, _, _, hdone⟩
    · obtain ⟨hnode, hbroke⟩ := Output.write_failed hready hfailed
      exact ⟨identity, rfl, hnode, hbroke⟩
    · cases hdone

private theorem write_secret_frames {node node' : ν} {secret : Option Identity}
    {position : Option Nat} (hready : output.Ready)
    (h : (secret.mapM fun identity => Output.write identity.header : Access Output ν (Option Nat))
      (node, output) =
      .ok position (node', output')) :
    node' = node ∧ position = secret.map (fun _ => output.bytes.length) ∧ ∃ more,
      Output.Extends output output' more ∧
      Tiles output.sink.codec output.bytes.length
        (secret.toList.map fun identity => ⟨output.bytes.length, .identity identity.header⟩)
          more := by
  cases secret with
  | none =>
    cases h
    exact ⟨rfl, rfl, [], ⟨rfl, rfl, rfl, (List.append_nil _).symm, hready⟩, rfl⟩
  | some identity =>
    change (some <$> Output.write identity.header : Access Output ν (Option Nat))
      (node, output) = _ at h
    obtain ⟨start, ⟨last, between⟩, hwrite, hdone⟩ := bind_ok h
    cases hdone
    obtain ⟨hnode, rfl, frame, hencode, hextends⟩ := Output.write_frame hready hwrite
    exact ⟨hnode, rfl, frame, hextends, Tiles.single hencode⟩

/-- With both identities at hand and their frames written, the header of the entry itself is due. -/
private theorem underway_header {cell : Lazy Identity} {slots : Slots (Lazy Identity)}
    {identity : Identity} {secret : Option Identity} {codec : Codec}
    (hcell : cell.peek = some identity)
    (hslots : Option.Rel (fun cell identity => cell.peek = some identity)
      (slots.get? singular) secret)
    (first second last : Nat) :
    Underway codec { entry with identification := cell, secretIdentity := slots }
      ([⟨first, .identity identity.header⟩] ++
        secret.toList.map fun identity => ⟨second, .identity identity.header⟩)
      (.frame .nested (Frame.encode codec .nested
        (Entry.toHeader { entry with identification := cell, secretIdentity := slots } first
          (secret.map fun _ => second)))) := by
  let saved : Entry := { entry with identification := cell, secretIdentity := slots }
  let block : Block := ⟨saved.contentWith identity secret, first, second, last⟩
  have hhas : saved.Has block.content := has_contentWith hcell hslots
  have hheader : saved.toHeader first (secret.map fun _ => second) = block.header := by
    rw [toHeader_eq hhas.approver hhas.reviewers, Block.header, contentWith_secretIdentity,
      Option.map_map]
    rfl
  have hframes : block.frames.dropLast = [⟨first, .identity identity.header⟩] ++
      secret.toList.map fun identity => ⟨second, .identity identity.header⟩ := by
    rw [Block.frames, List.dropLast_concat, contentWith_secretIdentity]
    cases secret <;> rfl
  rw [← hframes, hheader]
  exact .header hhas

private theorem save_failed (hready : output.Ready)
    (h : save (entry, output) = .error error (entry', output')) :
    ∃ started due, entry'.Underway output.sink.codec started due ∧
      Output.Broke error output output' started due := by
  rw [save] at h
  rcases bind_failed h with hfailed | ⟨identity, ⟨entry₁, output₁⟩, hidentity, h⟩
  · obtain ⟨hunderway, hbroke⟩ := identification_failed hfailed
    exact ⟨_, _, hunderway, hbroke⟩
  obtain ⟨hextends₁, streams₁, hidentity⟩ :=
    loading_ok hready (fun hrun => (onIdentification_ok hrun).1) hidentity
  obtain ⟨-, cell, hcell, rfl⟩ := onIdentification_ok hidentity
  rcases bind_failed h with hfailed | ⟨identification, ⟨entry₂, output₂⟩, hwrite, h⟩
  · obtain ⟨rfl, hbroke⟩ := Output.write_failed hextends₁.ready hfailed
    rw [hextends₁.codec_eq] at hbroke
    exact ⟨_, _, .identificationFrame hcell, hbroke.behind_nothing hextends₁⟩
  obtain ⟨rfl, rfl, frame₂, hencode₂, hextends₂⟩ := Output.write_frame hextends₁.ready hwrite
  have hextends₂' := hextends₁.trans hextends₂
  rw [List.nil_append] at hextends₂'
  rw [hextends₁.codec_eq] at hencode₂
  have hfirst : Tiles output.sink.codec output.bytes.length
    [⟨output.bytes.length, .identity identity.header⟩] frame₂ :=
    Tiles.single hencode₂
  have hlength₁ : output₁.bytes.length = output.bytes.length := by
    rw [hextends₁.bytes_eq, List.append_nil]
  rcases bind_failed h with hfailed | ⟨secret, ⟨entry₃, output₃⟩, hsecret, h⟩
  · obtain ⟨lost, hlost, hpeek, hsame, hbroke⟩ := secretIdentity_failed hfailed
    refine ⟨_, _, .secretIdentity ?_ hlost hpeek, hbroke.behind hextends₂' hfirst⟩
    rw [hsame]
    exact hcell
  obtain ⟨hextends₃, streams₃, hsecret⟩ :=
    loading_ok hextends₂.ready (fun hrun => (onSecretIdentity_ok hrun).1) hsecret
  obtain ⟨-, slots, hslots, rfl⟩ := onSecretIdentity_ok hsecret
  have hextends₃' := hextends₂'.trans hextends₃
  rw [List.append_nil] at hextends₃'
  rcases bind_failed h with hfailed | ⟨secretIdentity, ⟨entry₄, output₄⟩, hwrite', h⟩
  · obtain ⟨header, rfl, rfl, hbroke⟩ := write_secret_failed hextends₃.ready hfailed
    rw [hextends₃'.codec_eq] at hbroke
    generalize hfound : slots.get? singular = found at hslots
    cases hslots with
    | some hsecret =>
      exact ⟨_, _, .secretFrame hcell hfound hsecret, hbroke.behind hextends₃' hfirst⟩
  obtain ⟨rfl, rfl, frames, hextends₄, htiles⟩ := write_secret_frames hextends₃.ready hwrite'
  rw [Access.node_bind_apply] at h
  obtain ⟨rfl, hbroke⟩ := Output.write_failed hextends₄.ready h
  have hstart : output₃.bytes.length = output.bytes.length + frame₂.length := by
    rw [hextends₃'.bytes_eq, List.length_append]
  rw [hextends₃'.codec_eq, hstart] at htiles
  rw [hextends₄.codec_eq, hextends₃'.codec_eq, hlength₁, hstart] at hbroke
  have hall := hbroke.behind (hextends₃'.trans hextends₄) (hfirst.append htiles)
  rw [List.append_nil] at hall
  exact ⟨_, _, underway_header hcell hslots _ _ output₄.bytes.length, hall⟩

end Entry

/-- A flush moves nothing, whatever comes of it. -/
theorem Handle.flush_rests (handle : Handle) :
    (stateAfter (Handle.flush handle)).position = handle.position ∧
    (stateAfter (Handle.flush handle)).stream.content = handle.stream.content := by
  unfold Handle.flush
  dsimp only
  split
  · exact ⟨rfl, rfl⟩
  · split <;> exact ⟨rfl, rfl⟩

private theorem Sink.flush_failed {sink sink' : Sink} {handle handle' : Handle}
    (h : Sink.flush (sink, handle) = .error error (sink', handle')) :
    ∃ cause, error = .io cause ∧ Handle.flush handle = .error cause handle' ∧
      handle'.stream.content = handle.stream.content := by
  have hrests := (Handle.flush_rests handle).2
  unfold Sink.flush at h
  dsimp only at h
  cases hflush : Handle.flush handle with
  | ok done between =>
    rw [hflush] at h
    cases h
  | error cause between =>
    rw [hflush] at h hrests
    cases h
    exact ⟨cause, rfl, rfl, hrests⟩

namespace Document

variable {document document' : Document} {output output' : Output}

/-- How far the entry in a cell has been saved. -/
inductive CellUnderway (codec : Codec) (stamp : Stamp) (i : Nat) (cell : Lazy Entry) :
    List Placed → Due → Prop where
  | node (hpeek : cell.peek = none) :
      CellUnderway codec stamp i cell [] (.node (discard (loadEntry stamp i cell.origin)))
  | within {entry : Entry} {started : List Placed} {due : Due} (hpeek : cell.peek = some entry)
      (hentry : entry.Underway codec started due) : CellUnderway codec stamp i cell started due

private theorem saveCell_failed {stamp : Stamp} {i : Nat} {cell cell' : Lazy Entry}
    (hready : output.Ready)
    (h : Lazy.access (loadForSaving stamp i) Entry.save (cell, output) =
      .error error (cell', output')) :
    ∃ started due, CellUnderway output.sink.codec stamp i cell' started due ∧
      Output.Broke error output output' started due := by
  cases hfetch : cell.fetch (loadForSaving stamp i) output with
  | error found between =>
    rw [(Lazy.access_opens _ _).failed hfetch] at h
    cases h
    cases hpeek : cell.peek with
    | some value =>
      rw [Lazy.fetch_of_peek hpeek] at hfetch
      cases hfetch
    | none =>
      rw [Lazy.fetch_of_unloaded hpeek] at hfetch
      obtain ⟨streams, hload, hstate⟩ := mapState_eq_error hfetch
      cases hstate
      have hsame := sameBytes_loadEntry stamp i cell.origin output.streams
      rw [hload] at hsame
      exact ⟨_, _, .node hpeek, Output.broke_node (discard_failed hload) hsame⟩
  | ok entry between =>
    have hextends := fetch_ok hready hfetch
    obtain ⟨kept, -, hrun⟩ := (Lazy.access_opens (loadForSaving stamp i) Entry.save).fetched hfetch
    rw [hrun] at h
    obtain ⟨⟨entry', output''⟩, hsave, hstate⟩ := mapState_eq_error h
    cases hstate
    obtain ⟨started, due, hunderway, hbroke⟩ := Entry.save_failed hextends.ready hsave
    rw [hextends.codec_eq] at hunderway
    exact ⟨started, due, .within (Lazy.peek_putBack _ _) hunderway, hbroke.behind_nothing hextends⟩

/-- The first cells have entries with what the blocks hold. -/
def Written (cells : List (Option (Lazy Entry))) (blocks : List Block) : Prop :=
  ∀ (k : Nat) (block : Block), blocks[k]? = some block →
    ∃ entry : Entry, cells[k]?.join.bind Lazy.peek = some entry ∧ entry.Has block.content

private theorem written_nil (cells : List (Option (Lazy Entry))) : Written cells [] := by
  intro k block hblock
  cases hblock

private theorem written_cons {cell : Lazy Entry} {entry : Entry} {block : Block}
    {cells : List (Option (Lazy Entry))} {blocks : List Block} (hpeek : cell.peek = some entry)
    (hhas : entry.Has block.content) (h : Written cells blocks) :
    Written (some cell :: cells) (block :: blocks) := by
  intro k found hfound
  cases k with
  | zero =>
    cases hfound
    exact ⟨entry, hpeek, hhas⟩
  | succ k => exact h k found hfound

/-- A row of cells without gaps whose save failed, of which the first has number `i`: entries that
were saved, and the one that was being saved. -/
private theorem saveFrom_failed {stamp : Stamp} {i : Nat}
    {cells cells' : List (Option (Lazy Entry))} (hready : output.Ready)
    (hcells : ∀ cell ∈ cells, cell.isSome)
    (h : Slots.accessFrom (fun i => Lazy.access (loadForSaving stamp i) Entry.save) i cells output =
      .error error (cells', output')) :
    ∃ blocks started due cell, Written cells' blocks ∧ cells'[blocks.length]? = some (some cell) ∧
      CellUnderway output.sink.codec stamp (i + blocks.length) cell started due ∧
      Output.Broke error output output' (Block.allFrames blocks ++ started) due := by
  induction cells generalizing i cells' output with
  | nil => cases h
  | cons cell cells ih =>
    obtain ⟨value, rfl⟩ := Option.isSome_iff_exists.1 (hcells cell List.mem_cons_self)
    obtain ⟨later, hfirst, rfl⟩ | ⟨position, later, between, cells', hfirst, hrest, rfl⟩ :=
      Slots.accessFrom_eq_error h
    · obtain ⟨started, due, hunderway, hbroke⟩ := saveCell_failed hready hfirst
      exact ⟨[], started, due, later, written_nil _, rfl, hunderway, hbroke⟩
    · obtain ⟨content, more, entry, hpeek, hhas, hextends, hwrite⟩ := saveCell_ok hready hfirst
      obtain ⟨block, frames, rfl, -, hbytes, htiles⟩ := EntryContent.write_ok hwrite
      rw [hextends.bytes_eq, List.append_cancel_left_eq] at hbytes
      subst hbytes
      obtain ⟨blocks, started, due, lost, hwritten, hlost, hunderway, hbroke⟩ := ih hextends.ready
        (fun cell hcell => hcells cell (List.mem_cons_of_mem _ hcell)) hrest
      rw [hextends.codec_eq, Nat.add_right_comm, Nat.add_assoc] at hunderway
      refine ⟨block :: blocks, started, due, lost, written_cons hpeek hhas hwritten, hlost,
        hunderway, ?_⟩
      rw [Block.allFrames, List.flatMap_cons, List.append_assoc]
      exact hbroke.behind hextends htiles

/-- How far a document has been saved: the blocks of its first entries have been written, and frames
of the next entry. -/
inductive Underway (codec : Codec) (document : Document) :
    List Block → List Placed → Due → Prop where
  | seek : Underway codec document [] [] .seek
  | entry {blocks : List Block} {started : List Placed} {due : Due} {cell : Lazy Entry}
      (hcell : document.entries.get? blocks.length = some cell)
      (hunderway : CellUnderway codec document.stamp blocks.length cell started due) :
      Underway codec document blocks started due
  | root {blocks : List Block} (hcount : document.entryCount = blocks.length) :
      Underway codec document blocks []
        (.frame .root (Frame.encode codec .root (Block.rootHeader blocks)))

/-- The first entries are loaded and hold what the blocks hold. -/
def HasBlocks (document : Document) (blocks : List Block) : Prop :=
  ∀ (k : Nat) (block : Block), blocks[k]? = some block →
    ∃ entry, document.entryAt? k = some entry ∧ entry.Has block.content

private theorem hasBlocks_of_has {contents : List EntryContent} {blocks : List Block}
    (h : document.Has contents) (hblocks : blocks.map Block.content = contents) :
    document.HasBlocks blocks := by
  subst hblocks
  intro k block hblock
  have hslot := h.slot k
  rw [List.getElem?_map, hblock] at hslot
  rw [entryAt?]
  generalize document.entries.get? k = found at hslot ⊢
  cases hslot with
  | some hentry => exact hentry

private theorem saveEntries_failed (hready : output.Ready)
    (hgaps : ∀ i < document.entryCount, (document.entries.get? i).isSome)
    (h : saveEntries (document, output) = .error error (document', output')) :
    ∃ blocks started due, document'.HasBlocks blocks ∧
      document'.Underway output.sink.codec blocks started due ∧
      Output.Broke error output output' (Block.allFrames blocks ++ started) due := by
  rw [saveEntries_eq, onCells, Access.node_bind_apply, Access.within_apply,
    Slots.accessAll_apply] at h
  obtain ⟨state, hslots, hstate⟩ := mapState_eq_error h
  obtain ⟨⟨cells, after⟩, hcells, rfl⟩ := mapState_eq_error hslots
  cases hstate
  obtain ⟨blocks, started, due, cell, hwritten, hcell, hunderway, hbroke⟩ := saveFrom_failed hready
    (Slots.isSome_of_mem_cells hgaps) hcells
  rw [Nat.zero_add] at hunderway
  refine ⟨blocks, started, due, fun k block hblock => ?_, .entry ?_ hunderway, hbroke⟩
  · obtain ⟨entry, hpeek, hhas⟩ := hwritten k block hblock
    refine ⟨entry, ?_, hhas⟩
    rw [entryAt?, Slots.get?_ofCells]
    exact hpeek
  · rw [Slots.get?_ofCells, hcell, Option.join_some]

end Document

private theorem Output.emit_finish_failed [Message α] {header : α} {output output' : Output}
    (hready : output.Ready) (h : Output.emit (Sink.finish header) output = .error error output') :
    Output.Broke error output output' []
      (.frame .root (Frame.encode output.sink.codec .root header)) := by
  unfold Output.emit at h
  dsimp only at h
  cases hfinish : Sink.finish header
      (output.sink, ⟨output.streams.get output.target, output.position⟩) with
  | ok count state =>
    rw [hfinish] at h
    cases h
  | error found state =>
    obtain ⟨sink, handle⟩ := state
    rw [hfinish] at h
    cases h
    rw [Sink.finish, discard_bind] at hfinish
    rcases bind_failed hfinish with hwrite | ⟨position, ⟨sink₁, handle₁⟩, hwrite, hfinish⟩
    · apply emit_write_failed hready
      unfold Output.emit
      dsimp only
      rw [hwrite]
    · have hemit : Output.emit (Sink.write .root header) output = .ok position
          { output with
            streams := output.streams.set output.target handle₁.stream
            position := handle₁.position
            sink := sink₁ } := by
        unfold Output.emit
        dsimp only
        rw [hwrite]
      obtain ⟨-, frame, hencode, hextends⟩ := emit_write_ok hready hemit
      have hbytes : handle₁.stream.bytes = output.bytes ++ frame := by
        have hextended := hextends.bytes_eq
        rw [Output.bytes, Streams.get_set, if_pos rfl] at hextended
        exact hextended
      rcases bind_failed hfinish with hflush | ⟨_, _, _, hdone⟩
      · obtain ⟨cause, rfl, hfailed, hcontent⟩ := Sink.flush_failed hflush
        have htarget : (output.streams.set output.target handle.stream).get output.target =
          handle.stream := by
          rw [Streams.get_set, if_pos rfl]
        rw [hencode]
        refine ⟨rfl, [], frame, ?_, rfl, ?_⟩
        · rw [List.append_nil, Output.bytes, htarget, ← hbytes]
          exact congrArg Array.toList hcontent
        · rw [List.append_nil]
          refine .unflushed handle₁ handle.position rfl hbytes ?_
          rw [htarget]
          exact hfailed
      · cases hdone

namespace Document

variable {document document' : Document}

private theorem saveAll_failed {output output' : Output} (hready : output.Ready)
    (hgaps : ∀ i < document.entryCount, (document.entries.get? i).isSome)
    (h : saveAll (document, output) = .error error (document', output')) :
    ∃ blocks started due, document'.HasBlocks blocks ∧
      document'.Underway output.sink.codec blocks started due ∧
      Output.Broke error output output' (Block.allFrames blocks ++ started) due := by
  rw [saveAll] at h
  rcases bind_failed h with hentries | ⟨positions, ⟨between, output₁⟩, hentries, hfinish⟩
  · exact saveEntries_failed hready hgaps hentries
  · obtain ⟨contents, more, hhas, hextends, hwrites⟩ := saveEntries_ok hready hgaps hentries
    obtain ⟨blocks, frames, hcontents, rfl, hbytes, htiles⟩ := writeEntries_ok hwrites
    rw [hextends.bytes_eq, List.append_cancel_left_eq] at hbytes
    subst hbytes
    rw [Access.lift_apply] at hfinish
    obtain ⟨output₂, hemit, hstate⟩ := mapState_eq_error hfinish
    cases hstate
    have hbroke := Output.emit_finish_failed hextends.ready hemit
    have hcount : document'.entryCount = blocks.length := by
      rw [← List.length_map Block.content, hcontents]
      exact hhas.size_eq
    rw [hextends.codec_eq, List.map_map] at hbroke
    refine ⟨blocks, [], _, hasBlocks_of_has hhas hcontents, .root hcount, ?_⟩
    exact hbroke.behind hextends htiles

private theorem atEnd_failed {handle after : Handle}
    (h : Sink.atEnd codec handle = .error error after) :
    ∃ cause, error = .io cause ∧ Handle.seek (.fromEnd 0) handle = .error cause after ∧
      after.stream.content = handle.stream.content := by
  rw [Sink.atEnd] at h
  rcases bind_failed h with hseek | ⟨_, _, _, hdone⟩
  · obtain ⟨cause, rfl, hrun⟩ := Transfer.toFrameIO_eq_error hseek
    refine ⟨cause, rfl, hrun, ?_⟩
    unfold Handle.seek at hrun
    dsimp only at hrun
    split at hrun
    · cases hrun
    · split at hrun
      · cases hrun
      · split at hrun <;> cases hrun
        rfl
  · cases hdone

/-- Finding the end of a stream changes none of its bytes, even if it fails. -/
theorem bytes_atEnd (codec : Codec) (handle : Handle) :
    (stateAfter (Sink.atEnd codec handle)).stream.bytes = handle.stream.bytes := by
  cases hsink : Sink.atEnd codec handle with
  | ok sink after =>
    obtain ⟨-, -, hcontent⟩ := atEnd_ok hsink
    exact congrArg Array.toList hcontent
  | error error after =>
    obtain ⟨-, -, -, hcontent⟩ := atEnd_failed hsink
    exact congrArg Array.toList hcontent

/-- What a save that failed has left on its target: behind what was there, whole frames that fill
`body`, and `part` of what was due. -/
theorem save_failed {target : StreamId} {position : Nat} {streams streams' : Streams}
    (hgaps : ∀ i < document.entryCount, (document.entries.get? i).isSome)
    (h : save codec target position (document, streams) = .error error (document', streams')) :
    ∃ blocks started due body part,
      document'.HasBlocks blocks ∧ document'.Underway codec blocks started due ∧
      (streams'.get target).bytes = (streams.get target).bytes ++ body ++ part ∧
      Tiles codec (streams.get target).bytes.length (Block.allFrames blocks ++ started) body ∧
      due.Stops target error streams' ((streams.get target).bytes ++ body) part := by
  unfold save at h
  cases hsink : Sink.atEnd codec ⟨streams.get target, position⟩ with
  | error found handle =>
    simp only [hsink] at h
    cases h
    obtain ⟨cause, rfl, hseek, hcontent⟩ := atEnd_failed hsink
    have htarget : (streams.set target handle.stream).get target = handle.stream := by
      rw [Streams.get_set, if_pos rfl]
    refine ⟨[], [], .seek, [], [], ?_, .seek, ?_, rfl,
      .seek ⟨streams.get target, position⟩ handle.position rfl ?_⟩
    · intro k block hblock
      cases hblock
    · rw [List.append_nil, List.append_nil, htarget]
      exact congrArg Array.toList hcontent
    · rw [htarget]
      exact hseek
  | ok sink handle =>
    simp only [hsink] at h
    obtain ⟨rfl, hend, hcontent⟩ := atEnd_ok hsink
    cases hsave : saveAll (document, (⟨streams.set target handle.stream, target, handle.position,
        Sink.startingAt codec (streams.get target).content.size⟩ : Output)) with
    | ok count state =>
      rw [hsave] at h
      cases h
    | error found state =>
      obtain ⟨last, output⟩ := state
      rw [hsave] at h
      cases h
      obtain ⟨hready, hbytes⟩ := ready_atEnd hend hcontent
      obtain ⟨blocks, started, due, hblocks, hunderway, rfl, body, part, hleft, htiles, hstops⟩ :=
        saveAll_failed hready hgaps hsave
      rw [hbytes] at hleft htiles hstops
      exact ⟨blocks, started, due, body, part, hblocks, hunderway, hleft, htiles, hstops⟩

end Document

end FramedTree
