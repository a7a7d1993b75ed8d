import FramedTree.Proofs.Emission
import FramedTree.Proofs.FaultRemoval
import FramedTree.Proofs.PairedSaves
import FramedTree.Proofs.SaveRemnants

/-! # A failed save is a curtailed one

Beside a save that faults may disturb goes one from the same document without faults. The two do the
same up to the first failure; so what a failed save has written is the beginning of what is written
without faults.
-/

namespace FramedTree

variable {ν α β : Type} {target : StreamId} {output output' other other' : Output}

theorem prefix_of_eq {bytes bytes' : Bytes} (h : bytes' = bytes) :
    bytes <+: bytes' := h ▸ List.prefix_rfl

def Source.contentIn (streams : Streams) (source : Source) : Array UInt8 :=
  match source.backing with
  | .stream id => (streams.get id).content
  | .copy content => content

section Reading

variable [Message α] {origin : Origin} {streams after : Streams} {value : α}

/-- What is read from streams without faults is settled by their bytes. -/
theorem Origin.verdict_read (h : streams.still = streams) :
    verdict (origin.read streams : EStateM.Result _ _ α) =
    origin.source.frameAt (origin.source.contentIn streams) origin.position.toNat := by
  have hholds : streams.Holds fun id => some (streams.get id).content := by
    intro id content hid
    cases hid
    rw [← h, Streams.get_still]
    exact ⟨Stream.calm_still _, rfl⟩
  have hcontent : origin.source.content? (fun id => some (streams.get id).content) =
      some (origin.source.contentIn streams) := by
    unfold Source.content? Source.contentIn
    cases origin.source.backing <;> rfl
  obtain ⟨last, hrun, -⟩ := Origin.settles_read (α := α) hcontent streams hholds
  rw [hrun]
  cases (origin.source.frameAt
    (origin.source.contentIn streams) origin.position.toNat : Except Error α) <;> rfl

/-- A read that succeeds although there are faults gives what is read without them. -/
theorem Origin.frameAt_of_read (h : origin.read streams = .ok value after) :
    origin.source.frameAt (origin.source.contentIn streams) origin.position.toNat = .ok value := by
  have hstill := Withstands.originRead origin streams value after h
  have hverdict := @Origin.verdict_read α _ origin streams.still (Streams.still_still streams)
  rw [hstill] at hverdict
  have hcontent : origin.source.contentIn streams.still = origin.source.contentIn streams := by
    unfold Source.contentIn
    cases origin.source.backing with
    | copy => rfl
    | stream id =>
      dsimp only
      rw [Streams.get_still]
      rfl
  rw [← hcontent]
  exact hverdict.symm

theorem Origin.sameBytes_read (origin : Origin) : Keeps Streams.SameBytes (origin.read : Load α) :=
  Source.sameBytes_withHandle (Untouched.readAt _ _) origin.source

end Reading

namespace Output

/-- Nothing has been written, and no handle moved. -/
structure Rests (before after : Output) : Prop where
  target_eq : after.target = before.target
  position_eq : after.position = before.position
  sink_eq : after.sink = before.sink
  sameBytes : before.streams.SameBytes after.streams

private theorem rests_reading [Message α] (origin : Origin) :
    Keeps Rests (reading (origin.read : Load α)) := by
  intro output
  rw [reading, stateAfter_mapState]
  exact ⟨rfl, rfl, rfl, origin.sameBytes_read output.streams⟩

/-- A frame has been written behind everything else. -/
structure Adds (frame : Bytes) (before after : Output) : Prop where
  target_eq : after.target = before.target
  position_eq : after.position = before.position + frame.length
  sink_eq : after.sink =
    { before.sink with position := before.sink.position + frame.length, frames := before.sink.frames + 1 }
  bytes_eq : after.bytes = before.bytes ++ frame
  other : ∀ id, id ≠ before.target → after.streams.get id = before.streams.get id

private theorem Adds.ready {frame : Bytes} (h : Adds frame output output') (hready : output.Ready) :
    output'.Ready := by
  constructor
  · rw [h.position_eq, h.bytes_eq, List.length_append, hready.position_eq]
  · rw [h.sink_eq, h.bytes_eq, List.length_append, ← hready.sink_eq]

theorem Rests.bytes_eq (h : Rests output output') : output'.bytes = output.bytes := by
  rw [bytes, bytes, h.target_eq]
  exact congrArg Array.toList (h.sameBytes output.target)

private theorem Rests.ready (h : Rests output output') (hready : output.Ready) : output'.Ready := by
  constructor
  · rw [h.position_eq, h.bytes_eq, hready.position_eq]
  · rw [h.sink_eq, h.bytes_eq, hready.sink_eq]

/-- What a write that succeeds has added, whatever the stream did. -/
theorem emit_write_adds [Message α] {kind : FrameKind} {header : α} {position : Nat}
    (hready : output.Ready) (h : emit (Sink.write kind header) output = .ok position output') :
    position = output.bytes.length ∧ ∃ frame,
      Frame.encode output.sink.codec kind header = .ok frame ∧
      Adds frame output output' := by
  obtain ⟨size, handle, hwrite, rfl, rfl⟩ := emit_write_inv h
  have hstart : Handle.AtEnd ⟨output.streams.get output.target, output.position⟩ :=
    hready.position_eq
  obtain ⟨frame, hencode, rfl, hend, hbytes⟩ := Frame.write_ok hstart hwrite
  have htarget : (output.streams.set output.target handle.stream).get output.target =
    handle.stream := by
    rw [Streams.get_set, if_pos rfl]
  refine ⟨hready.sink_eq, frame, hencode, rfl, ?_, rfl, ?_, fun id hid => ?_⟩
  · rw [hready.position_eq, ← List.length_append]
    exact hend.trans (congrArg List.length hbytes)
  · rw [bytes, htarget]
    exact hbytes
  · rw [Streams.get_set, if_neg hid]

/-- Without faults a frame is written unless its message cannot be encoded. -/
theorem emit_write_still [Message α] (kind : FrameKind) (header : α)
    (h : output.streams.still = output.streams) :
    match Frame.encode output.sink.codec kind header with
    | .ok _ => ∃ position output', emit (Sink.write kind header) output = .ok position output' ∧
        output'.streams.still = output'.streams
    | .error error => ∃ output', emit (Sink.write kind header) output = .error error output' ∧
        Rests output output' := by
  have hfree := Streams.faults_of_still h output.target
  rw [emit_write_apply]
  cases hencode : Frame.encode output.sink.codec kind header with
  | error error =>
    rw [Frame.write_refused hencode]
    refine ⟨_, rfl, rfl, rfl, rfl, fun id => ?_⟩
    rw [Streams.get_set]
    split
    case isTrue hid => rw [hid]
    case isFalse => rfl
  | ok frame =>
    obtain ⟨handle, hwrite, hafter⟩ := @Frame.write_free α output.sink.codec
      ⟨output.streams.get output.target, output.position⟩ _ kind header frame hfree hencode
    rw [hwrite]
    refine ⟨_, _, rfl, ?_⟩
    rw [Streams.still_set, h, Stream.still, ← hafter]

private theorem emit_close_apply : emit Sink.close output =
    match Handle.flush ⟨output.streams.get output.target, output.position⟩ with
    | .ok _ handle => .ok (output.sink.position - output.sink.start)
      { output with
        streams := output.streams.set output.target handle.stream
        position := handle.position }
    | .error error handle => .error (.io error)
      { output with
        streams := output.streams.set output.target handle.stream
        position := handle.position } := by
  unfold emit Sink.close
  dsimp only
  rw [bind_apply, Sink.flush]
  cases Handle.flush ⟨output.streams.get output.target, output.position⟩ <;> rfl

/-- Closing writes nothing, whatever comes of it. -/
theorem rests_close : Keeps Rests (emit Sink.close) := by
  intro output
  have hflush := Handle.flush_rests ⟨output.streams.get output.target, output.position⟩
  have hrests {handle : Handle} (h : handle.position = output.position ∧
      handle.stream.content = (output.streams.get output.target).content) : Rests output
        { output with
        streams := output.streams.set output.target handle.stream
        position := handle.position } := by
    refine ⟨rfl, h.1, rfl, fun id => ?_⟩
    rw [Streams.get_set]
    split
    case isTrue hid => rw [hid, h.2]
    case isFalse => rfl
  rw [emit_close_apply]
  cases hrun : Handle.flush ⟨output.streams.get output.target, output.position⟩ with
  | ok done handle | error error handle =>
    rw [hrun] at hflush
    exact hrests hflush

theorem emit_close_ok {size : Nat} (h : emit Sink.close output = .ok size output') :
    size = output.sink.position - output.sink.start := by
  rw [emit_close_apply] at h
  cases hrun : Handle.flush ⟨output.streams.get output.target, output.position⟩ with
  | ok done handle =>
    rw [hrun] at h
    cases h
    rfl
  | error error handle =>
    rw [hrun] at h
    cases h

/-- Without faults closing succeeds. -/
theorem emit_close_still (h : output.streams.still = output.streams) : ∃ size output',
    emit Sink.close output = .ok size output' ∧ output'.streams.still = output'.streams := by
  have hflush : Handle.flush ⟨output.streams.get output.target, output.position⟩ =
      .ok () ⟨output.streams.get output.target, output.position⟩ := by
    unfold Handle.flush
    simp only [Streams.faults_of_still h output.target, Option.filter_none]
  rw [emit_close_apply, hflush]
  refine ⟨_, _, rfl, ?_⟩
  dsimp only
  rw [Streams.still_set, h, Stream.still, ← Streams.faults_of_still h output.target]

end Output

/-- How the bytes of the streams of two outputs agree: those of the target are the same, and may
grow alike. -/
structure Accord (target : StreamId) where
  Alike : StreamId → Array UInt8 → Array UInt8 → Prop
  same : ∀ {content content'}, Alike target content content' → content' = content
  grows : ∀ {content more},
    Alike target content content → Alike target (content ++ more) (content ++ more)

/-- Two outputs that have come equally far, of which the second has no faults. -/
structure Output.Level (accord : Accord target) (output other : Output) : Prop where
  ready : output.Ready
  still_eq : other.streams.still = other.streams
  target_eq : output.target = target
  other_eq : other.target = target
  position_eq : other.position = output.position
  sink_eq : other.sink = output.sink
  alike : ∀ id, accord.Alike id (output.streams.get id).content (other.streams.get id).content

namespace Output.Level

variable {accord : Accord target}

theorem bytes_eq (h : Level accord output other) : other.bytes = output.bytes := by
  have hsame := h.alike target
  rw [bytes, bytes, h.target_eq, h.other_eq]
  exact congrArg Array.toList (accord.same hsame)

theorem ready' (h : Level accord output other) : other.Ready := by
  constructor
  · rw [h.position_eq, h.bytes_eq, h.ready.position_eq]
  · rw [h.sink_eq, h.bytes_eq, h.ready.sink_eq]

theorem rests (h : Level accord output other) (hrests : Rests output output')
    (hrests' : Rests other other') (hstill : other'.streams.still = other'.streams) :
    Level accord output' other' where
  ready := hrests.ready h.ready
  still_eq := hstill
  target_eq := hrests.target_eq.trans h.target_eq
  other_eq := hrests'.target_eq.trans h.other_eq
  position_eq := by rw [hrests'.position_eq, hrests.position_eq, h.position_eq]
  sink_eq := by rw [hrests'.sink_eq, hrests.sink_eq, h.sink_eq]
  alike id := by
    rw [hrests.sameBytes id, hrests'.sameBytes id]
    exact h.alike id

theorem adds {frame : Bytes} (h : Level accord output other) (hadds : Adds frame output output')
    (hadds' : Adds frame other other') (hstill : other'.streams.still = other'.streams) :
    Level accord output' other' where
  ready := hadds.ready h.ready
  still_eq := hstill
  target_eq := hadds.target_eq.trans h.target_eq
  other_eq := hadds'.target_eq.trans h.other_eq
  position_eq := by rw [hadds'.position_eq, hadds.position_eq, h.position_eq]
  sink_eq := by rw [hadds'.sink_eq, hadds.sink_eq, h.sink_eq]
  alike id := by
    by_cases hid : id = target
    · subst hid
      have hold := h.alike id
      rw [accord.same hold] at hold
      have hbytes : (output'.streams.get id).content =
        (output.streams.get id).content ++ frame.toArray := by
        have hbytes := hadds.bytes_eq
        rw [bytes, bytes, hadds.target_eq, h.target_eq] at hbytes
        exact Array.ext' (by rw [Array.toList_append]; exact hbytes)
      have hbytes' : (other'.streams.get id).content =
        (output.streams.get id).content ++ frame.toArray := by
        have hbytes' := hadds'.bytes_eq
        rw [h.bytes_eq, bytes, bytes, hadds'.target_eq, h.target_eq, h.other_eq] at hbytes'
        exact Array.ext' (by rw [Array.toList_append]; exact hbytes')
      rw [hbytes, hbytes']
      exact accord.grows hold
    · rw [hadds.other id (by rw [h.target_eq]; exact hid),
        hadds'.other id (by rw [h.other_eq]; exact hid)]
      exact h.alike id

end Output.Level

namespace Output

def AtEnd (output : Output) : Prop := output.position = output.bytes.length

/-- More may have been written, but nothing was taken away. -/
structure Onward (before after : Output) : Prop where
  target_eq : after.target = before.target
  written : before.AtEnd → after.AtEnd ∧ before.bytes <+: after.bytes

instance : IsPreorder Output Onward where
  refl _ := ⟨rfl, fun hend => ⟨hend, List.prefix_rfl⟩⟩
  trans _ _ _ hab hbc := by
    refine ⟨hbc.target_eq.trans hab.target_eq, fun hend => ?_⟩
    obtain ⟨hbetween, hfirst⟩ := hab.written hend
    obtain ⟨hafter, hsecond⟩ := hbc.written hbetween
    exact ⟨hafter, hfirst.trans hsecond⟩

theorem Rests.onward (h : Rests output output') : Onward output output' := by
  refine ⟨h.target_eq, fun hend => ⟨?_, ?_⟩⟩
  · rw [AtEnd, h.position_eq, h.bytes_eq]
    exact hend
  · exact prefix_of_eq h.bytes_eq

theorem onward_write [Message α] (kind : FrameKind) (header : α) :
    Keeps Onward (emit (Sink.write kind header)) := by
  intro output
  have hmoved {handle : Handle} {sink : Sink} (h : output.AtEnd → handle.AtEnd ∧ ∃ part,
      handle.stream.bytes = output.bytes ++ part) : Onward output
        { output with
          streams := output.streams.set output.target handle.stream
          position := handle.position
          sink } := by
    refine ⟨rfl, fun hend => ?_⟩
    obtain ⟨hafter, part, hbytes⟩ := h hend
    have htarget : (output.streams.set output.target handle.stream).get output.target =
      handle.stream := by
      rw [Streams.get_set, if_pos rfl]
    constructor
    · rw [AtEnd, bytes, htarget]
      exact hafter
    · rw [bytes, bytes, htarget]
      exact ⟨part, hbytes.symm⟩
  rw [emit_write_apply]
  cases hwrite : Frame.write output.sink.codec kind header
    ⟨output.streams.get output.target, output.position⟩ with
  | ok size handle =>
    refine hmoved fun hend => ?_
    have hstart : Handle.AtEnd ⟨output.streams.get output.target, output.position⟩ := hend
    obtain ⟨frame, -, -, hafter, hbytes⟩ := Frame.write_ok hstart hwrite
    exact ⟨hafter, frame, hbytes⟩
  | error error handle =>
    refine hmoved fun hend => ?_
    have hstart : Handle.AtEnd ⟨output.streams.get output.target, output.position⟩ := hend
    rcases Frame.write_error hwrite with ⟨-, rfl⟩ | ⟨frame, cause, -, -, hpour⟩
    · exact ⟨hstart, [], (List.append_nil _).symm⟩
    · obtain ⟨hafter, part, -, -, hbytes⟩ := Handle.pour_error hstart hpour
      exact ⟨hafter, part, hbytes⟩

end Output

def Accord.exact (target : StreamId) : Accord target where
  Alike _ content content' := content' = content
  same h := h
  grows _ := rfl

/-- A save without faults escorts one with faults. When the latter fails, the other has written as
much, and goes on. -/
def Escort.curtailing (target : StreamId) : Escort Output where
  Beside := Output.Level (.exact target)
  Failed _ _ := False
  Parted _ output other :=
    output.target = target ∧ other.target = target ∧ other.AtEnd ∧ output.bytes <+: other.bytes
  Onward := Output.Onward
  onward := inferInstance
  parted := by
    intro error output other other' ⟨htarget, hother, hend, hprefix⟩ honward
    obtain ⟨hend', hmore⟩ := honward.written hend
    exact ⟨htarget, honward.target_eq.trans hother, hend', hprefix.trans hmore⟩

namespace Output.Level

variable (h : Level (.exact target) output other)
include h

private theorem parted {error : Error} {part : Bytes} (htarget : output'.target = output.target)
    (hbytes : output'.bytes = output.bytes ++ part) (honward : Onward other other')
    (hpart : output.bytes ++ part <+: other'.bytes) :
    (Escort.curtailing target).Parted error output' other' := by
  have hend : other.AtEnd := h.ready'.position_eq
  refine ⟨htarget.trans h.target_eq, honward.target_eq.trans h.other_eq,
    (honward.written hend).1, ?_⟩
  rw [hbytes]
  exact hpart

private theorem parted_resting {error : Error} (hrests : Rests output output')
    (honward : Onward other other') :
    (Escort.curtailing target).Parted error output' other' := by
  have hend : other.AtEnd := h.ready'.position_eq
  have hmore := (honward.written hend).2
  have hbytes : output'.bytes = output.bytes ++ [] := by rw [hrests.bytes_eq, List.append_nil]
  refine h.parted hrests.target_eq hbytes honward ?_
  rwa [List.append_nil, ← h.bytes_eq]

private theorem ends_write [Message α] (kind : FrameKind) (header : α) :
    (Escort.curtailing target).Ends Eq (emit (Sink.write kind header) output)
      (emit (Sink.write kind header) other) := by
  have hwrite' := emit_write_still kind header h.still_eq
  have honward := onward_write kind header other
  rw [h.sink_eq] at hwrite'
  cases hwrite : emit (Sink.write kind header) output with
  | ok position output' =>
    obtain ⟨rfl, frame, hencode, hadds⟩ := emit_write_adds h.ready hwrite
    rw [hencode] at hwrite'
    obtain ⟨position', other', hwrite', hstill⟩ := hwrite'
    obtain ⟨rfl, frame', hencode', hadds'⟩ := emit_write_adds h.ready' hwrite'
    rw [h.sink_eq, hencode] at hencode'
    cases hencode'
    rw [hwrite']
    exact .ok (congrArg List.length h.bytes_eq).symm (h.adds hadds hadds' hstill)
  | error error output' =>
    obtain ⟨htarget, body, part, hbytes, htiles, hstops⟩ := emit_write_failed h.ready hwrite
    cases htiles
    rw [List.append_nil] at hbytes
    refine .parted (h.parted htarget hbytes honward ?_)
    cases hencode : Frame.encode output.sink.codec kind header with
    | error refused =>
      rw [hencode] at hwrite' hstops
      obtain ⟨other', hwrite', hrests⟩ := hwrite'
      cases hstops
      rw [hwrite', stateAfter_error, List.append_nil]
      exact prefix_of_eq (hrests.bytes_eq.trans h.bytes_eq)
    | ok frame =>
      rw [hencode] at hwrite' hstops
      obtain ⟨position', other', hwrite', -⟩ := hwrite'
      obtain ⟨-, frame', hencode', hadds'⟩ := emit_write_adds h.ready' hwrite'
      rw [h.sink_eq, hencode] at hencode'
      cases hencode'
      rw [hwrite', stateAfter_ok, hadds'.bytes_eq, h.bytes_eq]
      cases hstops with
      | torn _ _ _ _ _ hpart => exact (List.prefix_append_right_inj _).2 hpart
      | unflushed => exact List.prefix_rfl

private theorem ends_close :
    (Escort.curtailing target).Ends Eq (emit Sink.close output) (emit Sink.close other) := by
  have hrests := rests_close output
  have hrests' := rests_close other
  cases hclose : emit Sink.close output with
  | ok size output' =>
    obtain ⟨size', other', hclose', hstill⟩ := emit_close_still h.still_eq
    rw [hclose] at hrests
    rw [hclose'] at hrests' ⊢
    refine .ok ?_ (h.rests hrests hrests' hstill)
    rw [emit_close_ok hclose, emit_close_ok hclose', h.sink_eq]
  | error error output' =>
    rw [hclose] at hrests
    exact .parted (h.parted_resting hrests hrests'.onward)

private theorem ends_reading [Message α] (origin : Origin) : (Escort.curtailing target).Ends Eq
    (reading (origin.read : Load α) output) (reading (origin.read : Load α) other) := by
  have hrests := rests_reading (α := α) origin output
  have hrests' := rests_reading (α := α) origin other
  have hsame : origin.source.contentIn other.streams = origin.source.contentIn output.streams := by
    unfold Source.contentIn
    cases origin.source.backing with
    | copy => rfl
    | stream id => exact h.alike id
  rw [reading, reading] at *
  cases hread : (origin.read output.streams : EStateM.Result _ _ α) with
  | error error streams =>
    rw [hread] at hrests
    exact .parted (h.parted_resting hrests hrests'.onward)
  | ok value streams =>
    have hverdict := @Origin.verdict_read α _ origin _ h.still_eq
    rw [hsame, Origin.frameAt_of_read hread] at hverdict
    have hread' := eq_ok_of_verdict _ _ hverdict
    rw [hread] at hrests
    rw [hread'] at hrests' ⊢
    exact .ok rfl
      (h.rests hrests hrests' ((Withstands.originRead origin).still_after h.still_eq hread'))

end Output.Level

theorem Escort.carries_curtailing (target : StreamId) : (Escort.curtailing target).Carries where
  read origin output := (Output.rests_reading origin output).onward
  write kind header :=
    ⟨fun _ _ hlevel => hlevel.ends_write kind header, Output.onward_write kind header⟩
  close := ⟨fun _ _ hlevel => hlevel.ends_close, fun output => (Output.rests_close output).onward⟩

theorem Streams.still_set_free {streams : Streams} {stream : Stream} (h : streams.still = streams)
    (hfree : stream.faults = {}) :
    (streams.set target stream).still = streams.set target stream := by
  rw [Streams.still_set, h, Stream.still, ← hfree]

/-- Both handles have been sent to the end of the same bytes. -/
theorem Output.level_atEnd (codec : Codec) {accord : Accord target} {streams streams' : Streams}
    {handle handle' : Handle} (hend : handle.AtEnd)
    (hcontent : handle.stream.content = (streams.get target).content) (hend' : handle'.AtEnd)
    (hcontent' : handle'.stream.content = (streams'.get target).content)
    (hstill : streams'.still = streams') (hfree : handle'.stream.faults = {})
    (halike : ∀ id, accord.Alike id (streams.get id).content (streams'.get id).content) :
    Output.Level accord
      ⟨streams.set target handle.stream, target, handle.position,
        Sink.startingAt codec (streams.get target).content.size⟩
      ⟨streams'.set target handle'.stream, target, handle'.position,
        Sink.startingAt codec (streams'.get target).content.size⟩ := by
  have hsame : (streams'.get target).content = (streams.get target).content :=
    accord.same (halike target)
  refine ⟨(Document.ready_atEnd hend hcontent).1, Streams.still_set_free hstill hfree, rfl, rfl, ?_,
    ?_, fun id => ?_⟩
  · rw [hend', hend, hcontent', hcontent, hsame]
  · rw [hsame]
  · dsimp only
    rw [Streams.get_set, Streams.get_set]
    split
    case isTrue hid =>
      rw [hcontent, hcontent', hid]
      exact halike target
    case isFalse => exact halike id

namespace Document

variable {codec : Codec} {document document' : Document} {streams streams' : Streams}
  {position : Nat} {error : Error}

theorem save_apply : save codec target position (document, streams) =
    match Sink.atEnd codec ⟨streams.get target, position⟩ with
    | .error error handle => .error error (document, streams.set target handle.stream)
    | .ok sink handle => mapState (fun state => (state.1, state.2.streams))
      (saveAll (document, ⟨streams.set target handle.stream, target, handle.position, sink⟩)) := by
  unfold save
  dsimp only
  cases Sink.atEnd codec ⟨streams.get target, position⟩ with
  | error error handle => rfl
  | ok sink handle =>
    dsimp only
    cases saveAll (document, ⟨streams.set target handle.stream, target, handle.position, sink⟩) <;>
      rfl

private theorem save_onward : (streams.get target).bytes <+:
    ((stateAfter (save codec target position (document, streams))).2.get target).bytes := by
  rw [save_apply]
  cases hsink : Sink.atEnd codec ⟨streams.get target, position⟩ with
  | error error handle =>
    have hbytes := bytes_atEnd codec ⟨streams.get target, position⟩
    rw [hsink] at hbytes
    rw [stateAfter_error, Streams.get_set, if_pos rfl]
    exact prefix_of_eq hbytes
  | ok sink handle =>
    obtain ⟨rfl, hend, hcontent⟩ := atEnd_ok hsink
    let output : Output := ⟨streams.set target handle.stream, target, handle.position,
      Sink.startingAt codec (streams.get target).content.size⟩
    obtain ⟨hready, hbytes⟩ : output.Ready ∧ output.bytes = (streams.get target).bytes :=
      ready_atEnd hend hcontent
    have honward : output.Onward (stateAfter (saveAll (document, output))).2 :=
      (escorts_saveAll (Escort.carries_curtailing target)).onward (document, output)
    have hafter : (stateAfter (saveAll (document, output))).2.bytes =
        ((stateAfter (saveAll (document, output))).2.streams.get target).bytes := by
      rw [Output.bytes, honward.target_eq]
    rw [stateAfter_mapState, ← hbytes]
    exact (honward.written hready.position_eq).2.trans (prefix_of_eq hafter.symm)

theorem readsOnly_any (document : Document) : document.ReadsOnly fun _ => True := by
  have hcell {ν : Type} (cell : Lazy ν) : cell.ReadsOnly fun _ => True := fun _ _ _ => trivial
  exact ⟨fun _ cell _ => hcell cell, fun _ entry _ => ⟨hcell _, fun cell _ => hcell cell⟩⟩

/-- What a failed save has left on its target is the beginning of what is there after a save without
faults. -/
theorem save_curtailed
    (h : save codec target position (document, streams) = .error error (document', streams')) :
    (streams'.get target).bytes <+:
      ((stateAfter (save codec target position (document, streams.still))).2.get target).bytes := by
  rw [save_apply] at h
  cases hsink : Sink.atEnd codec ⟨streams.get target, position⟩ with
  | error found handle =>
    rw [hsink] at h
    cases h
    have hbytes := bytes_atEnd codec ⟨streams.get target, position⟩
    have hsame : (streams.still.get target).bytes = (streams.get target).bytes := by
      rw [Streams.get_still]
      rfl
    rw [hsink, stateAfter_error] at hbytes
    rw [Streams.get_set, if_pos rfl, hbytes, ← hsame]
    exact save_onward
  | ok sink handle =>
    rw [hsink] at h
    obtain ⟨⟨saved, output⟩, hsave, hstate⟩ := mapState_eq_error h
    cases hstate
    obtain ⟨rfl, hend, hcontent⟩ := atEnd_ok hsink
    have hfree := Streams.faults_of_still (Streams.still_still streams) target
    obtain ⟨sink', handle', hsink', hfree'⟩ :=
      @atEnd_free codec ⟨streams.still.get target, position⟩ hfree
    obtain ⟨rfl, hend', hcontent'⟩ := atEnd_ok hsink'
    have halike (id : StreamId) :
      (Accord.exact target).Alike id (streams.get id).content (streams.still.get id).content := by
      rw [Streams.get_still]
      rfl
    have hlevel := Output.level_atEnd codec hend hcontent hend' hcontent'
      (Streams.still_still streams) hfree' halike
    have hreads : (Escort.curtailing target).Reads fun _ => True :=
      fun origin _ _ _ hbeside => Output.Level.ends_reading hbeside origin
    have hself := beside_self hreads document.readsOnly_any
    have hends := (escorts_saveAll (Escort.carries_curtailing target)).ends (document, _)
      (document, _) ⟨hself, hlevel⟩
    rw [hsave] at hends
    rw [save_apply, hsink', stateAfter_mapState]
    obtain ⟨htarget, hother, -, hprefix⟩ := hends.parted_of fun _ hfailed => hfailed
    rwa [Output.bytes, Output.bytes, htarget, hother] at hprefix

end Document

end FramedTree
