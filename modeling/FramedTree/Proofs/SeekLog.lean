import FramedTree.Proofs.OperationReach

/-! # What reading and writing leave in the log

A stream logs the seeks that are made in it. A stored node is read after one seek to its position,
whatever comes of the read, and opening a document takes three seeks. Writing frames takes none.
-/

namespace FramedTree

variable {α β ε ν : Type}

def Handle.SameSeeks (before after : Handle) : Prop := after.stream.seeks = before.stream.seeks

instance : IsPreorder Handle Handle.SameSeeks where
  refl _ := rfl
  trans _ _ _ hab hbc := hbc.trans hab

namespace SameSeeks

private theorem readPlain (count : Nat) : Keeps Handle.SameSeeks (Handle.readPlain count) := by
  intro handle
  unfold Handle.readPlain
  dsimp only
  split
  · rfl
  · split <;> rfl

private theorem read (count : Nat) :
    Keeps Handle.SameSeeks (Handle.read count) := Keeps.read readPlain (fun _ => rfl) count

private theorem writePlain (data : Bytes) : Keeps Handle.SameSeeks (Handle.writePlain data) := by
  rintro ⟨⟨content, faults, seeks⟩, position⟩
  unfold Handle.writePlain
  dsimp only
  split
  · rfl
  · split <;> rfl

private theorem write (data : Bytes) : Keeps Handle.SameSeeks (Handle.write data) := by
  rintro ⟨⟨content, faults, seeks⟩, position⟩
  unfold Handle.write
  dsimp only
  split
  · exact writePlain data _
  · rfl
  · exact writePlain _ ⟨⟨content, { faults with writeHiccups := _ }, seeks⟩, position⟩

private theorem flush : Keeps Handle.SameSeeks Handle.flush := by
  intro handle
  unfold Handle.flush
  dsimp only
  split
  · rfl
  · split <;> rfl

private theorem pour (calls : Nat) (data : Bytes) :
    Keeps Handle.SameSeeks (Handle.pour calls data) := by
  induction calls generalizing data with
  | zero => exact Keeps.pure _
  | succ calls ih =>
    unfold Handle.pour
    split
    · exact Keeps.pure _
    · refine Keeps.bind (fun handle => Keeps.retrying (write data) _ handle) fun taken => ?_
      split
      · exact Keeps.bind (Keeps.throw _) fun _ => ih _
      · exact ih _

private theorem writeFrame [Message α] (codec : Codec) (kind : FrameKind) (value : α) :
    Keeps Handle.SameSeeks (Frame.write codec kind value) := by
  unfold Frame.write FrameIO.ofExcept
  cases Frame.encode codec kind value with
  | error error =>
    exact Keeps.bind (Keeps.throw _) fun _ => Keeps.bind (Keeps.toFrameIO (pour _ _)) fun _ =>
      Keeps.pure _
  | ok frame =>
    exact Keeps.bind (Keeps.pure _) fun _ => Keeps.bind (Keeps.toFrameIO (pour _ _)) fun _ =>
      Keeps.pure _

end SameSeeks

private theorem Handle.seeks_seek (target : SeekTarget) (handle : Handle) :
    (stateAfter (Handle.seek target handle)).stream.seeks = target :: handle.stream.seeks := by
  unfold Handle.seek
  dsimp only
  generalize handle.stream.faults.seek.filter (·.isActive) = fault
  cases fault with
  | none => cases target <;> rfl
  | some fault =>
    dsimp only
    split
    · rfl
    · cases fault.effect <;> rfl

private theorem Frame.seeks_readAt [Message α] (codec : Codec) (position : Nat) (handle : Handle) :
    (stateAfter ((Frame.readAt codec position : FrameIO α) handle)).stream.seeks =
      .start position :: handle.stream.seeks := by
  have hseek := Handle.seeks_seek (.start position) handle
  rw [Frame.readAt, discard_bind, bind_apply]
  cases hrun : Handle.seek (.start position) handle with
  | error error after =>
    rw [hrun] at hseek
    rw [Transfer.toFrameIO_error hrun]
    exact hseek
  | ok found after =>
    rw [hrun] at hseek
    rw [Transfer.toFrameIO_ok hrun]
    have hnested := Keeps.readNested (α := α) SameSeeks.read codec after
    exact hnested.trans hseek

/-- The seeks that reading a stored node takes in a stream. -/
def Origin.seeks (origin : Origin) (id : StreamId) : List SeekTarget :=
  if origin.source.backing = .stream id ∧
    origin.source.isReading = false then [.start origin.position.toNat] else []

private theorem Stream.seekLog_eq {before after : Stream} {target : SeekTarget}
    (h : after.seeks = target :: before.seeks) :
    after.seekLog = before.seekLog ++ [target] := by
  rw [seekLog, h, List.reverse_cons, seekLog]

theorem Origin.seekLog_read [Message α] (origin : Origin) (streams : Streams) (id : StreamId) :
    ((stateAfter ((origin.read : Load α) streams)).get id).seekLog =
      (streams.get id).seekLog ++ origin.seeks id := by
  rw [Origin.read, Source.readAt, Source.withHandle_apply, Origin.seeks]
  cases hidle : origin.source.isReading with
  | true =>
    rw [if_pos rfl, if_neg (by simp), List.append_nil]
    rfl
  | false =>
    cases hbacking : origin.source.backing with
    | copy content =>
      simp only [Bool.false_eq_true, if_false, reduceCtorEq, false_and, List.append_nil,
        stateAfter_mapState]
    | stream other =>
      have hread :=
        Frame.seeks_readAt (α := α) origin.source.codec origin.position.toNat ⟨streams.get other, 0⟩
      simp only [Bool.false_eq_true, if_false, stateAfter_mapState, Streams.get_set,
        Backing.stream.injEq, and_true]
      by_cases hid : id = other
      · subst hid
        rw [if_pos rfl, if_pos rfl]
        exact Stream.seekLog_eq hread
      · rw [if_neg hid, if_neg (Ne.symm hid), List.append_nil]

namespace SameSeeks

private theorem sinkWrite [Message α] (kind : FrameKind) (value : α) :
    Keeps (OnAround Handle.SameSeeks) (Sink.write kind value) := by
  rintro ⟨sink, handle⟩
  have hwrite := writeFrame sink.codec kind value handle
  unfold Sink.write
  cases hrun : Frame.write sink.codec kind value handle with
  | ok size after | error error after =>
    rw [hrun] at hwrite
    simp only [hrun]
    exact hwrite

private theorem sinkFlush : Keeps (OnAround Handle.SameSeeks) Sink.flush := by
  rintro ⟨sink, handle⟩
  have hflush := flush handle
  unfold Sink.flush
  cases hrun : Handle.flush handle with
  | ok done after | error error after =>
    rw [hrun] at hflush
    simp only [hrun]
    exact hflush

private theorem sinkFinish [Message α] (root : α) :
    Keeps (OnAround Handle.SameSeeks) (Sink.finish root) :=
  Keeps.bind (Keeps.map _ (sinkWrite .root root)) fun _ =>
    Keeps.bind sinkFlush fun _ => Keeps.bind Keeps.get fun _ => Keeps.pure _

end SameSeeks

private theorem Output.seekLog_emit {activity : SinkIO α}
    (h : Keeps (OnAround Handle.SameSeeks) activity) (output : Output) (id : StreamId) :
    ((stateAfter (emit activity output)).streams.get id).seekLog =
      (output.streams.get id).seekLog := by
  have hactivity := h (output.sink, ⟨output.streams.get output.target, output.position⟩)
  rw [emit_streams, Streams.get_set]
  split
  case isTrue hid =>
    subst hid
    rw [Stream.seekLog, hactivity, Stream.seekLog]
  case isFalse => rfl

private theorem Sink.seeks_atEnd (codec : Codec) (handle : Handle) :
    (stateAfter (Sink.atEnd codec handle)).stream.seeks = .fromEnd 0 :: handle.stream.seeks := by
  have hseek := Handle.seeks_seek (.fromEnd 0) handle
  rw [Sink.atEnd, bind_apply]
  cases hrun : Handle.seek (.fromEnd 0) handle with
  | ok found after =>
    rw [hrun] at hseek
    rw [Transfer.toFrameIO_ok hrun]
    exact hseek
  | error error after =>
    rw [hrun] at hseek
    rw [Transfer.toFrameIO_error hrun]
    exact hseek

/-- Saving to a target seeks its end first, and then makes no further seek of its own. -/
def Writing.logged (target : StreamId) : Writing where
  begins before after := ∀ name edition, (after.get (.named name edition)).seekLog =
    (before.get (.named name edition)).seekLog ++ if .named name edition =
      target then [.fromEnd 0] else []
  writes before after := ∀ name edition,
    (after.get (.named name edition)).seekLog = (before.get (.named name edition)).seekLog

theorem Writing.logged_allows (codec : Codec) (target : StreamId) (position : Nat) :
    (Writing.logged target).AllowsTo (fun _ => True) codec target position where
  load _ _ := trivial
  write header output _ :=
    ⟨trivial, fun _ _ => Output.seekLog_emit (SameSeeks.sinkWrite .nested header) output _⟩
  finish header output _ :=
    ⟨trivial, fun _ _ => Output.seekLog_emit (SameSeeks.sinkFinish header) output _⟩
  begins streams name edition := by
    have hend := Sink.seeks_atEnd codec ⟨streams.get target, position⟩
    rw [Streams.get_set]
    by_cases hid : .named name edition = target
    · subst hid
      rw [if_pos rfl, if_pos rfl]
      exact Stream.seekLog_eq hend
    · rw [if_neg hid, if_neg hid, List.append_nil]
  fit _ _ _ _ := trivial

def Handle.sought (handle : Handle) (target : SeekTarget) : Handle :=
  ⟨{ handle.stream with seeks := target :: handle.stream.seeks }, handle.destination target⟩

private theorem Handle.toFrameIO_seek {handle : Handle} (h : handle.stream.Calm)
    (target : SeekTarget) :
    (Handle.seek target).toFrameIO handle =
      .ok (handle.destination target) (handle.sought target) :=
  Transfer.toFrameIO_ok (Handle.seek_eq h target)

/-- The length that the last bytes of a stream announce. -/
def Stream.trailer (stream : Stream) : Nat :=
  Bytes.toNat ((stream.bytes.drop (stream.content.size - Frame.trailerSize)).take Frame.trailerSize)

private theorem Frame.seekRoot_sought {handle after : Handle} {length : Nat}
    (hcalm : handle.stream.Calm) (h : Frame.seekRoot handle = .ok length after) :
    after.stream.seeks =
      [.start (handle.stream.content.size - Frame.size handle.stream.trailer .root),
      .fromEnd Frame.trailerSize, .fromEnd 0] ++ handle.stream.seeks := by
  have hcalm₁ : (handle.sought (.fromEnd 0)).stream.Calm :=
    ⟨hcalm.read, hcalm.seek, hcalm.eofAt, hcalm.chunk, hcalm.hiccups⟩
  let second := (handle.sought (.fromEnd 0)).sought (.fromEnd trailerSize)
  have hcalm₂ : second.stream.Calm :=
    ⟨hcalm.read, hcalm.seek, hcalm.eofAt, hcalm.chunk, hcalm.hiccups⟩
  have hcalm₃ : (second.advance trailerSize).stream.Calm := hcalm₂
  have hread : (Handle.readExactly trailerSize).toFrameIO second =
      if second.ahead.length <
        trailerSize then .error (.io .endOfStream) (second.advance second.ahead.length)
      else .ok (second.ahead.take trailerSize) (second.advance trailerSize) := by
    have hexactly := Handle.readExactly_eq hcalm₂ trailerSize
    split at hexactly
    case isTrue hshort => rw [if_pos hshort, Transfer.toFrameIO_error hexactly]
    case isFalse hshort => rw [if_neg hshort, Transfer.toFrameIO_ok hexactly]
  rw [seekRoot_eq, bind_apply, Handle.toFrameIO_seek hcalm] at h
  dsimp only at h
  split at h
  · cases h
  · rw [bind_apply, Handle.toFrameIO_seek hcalm₁] at h
    dsimp only at h
    by_cases hshort : second.ahead.length < trailerSize
    · rw [bind_apply, hread, if_pos hshort] at h
      cases h
    · rw [bind_apply, hread, if_neg hshort] at h
      dsimp only at h
      split at h
      · cases h
      · rw [bind_apply, Handle.toFrameIO_seek hcalm₃] at h
        cases h
        rfl

theorem Frame.seeks_readRoot [Message α] {codec : Codec} {handle after : Handle} {value : α}
    (hcalm : handle.stream.Calm) (h : (Frame.readRoot codec : FrameIO α) handle = .ok value after) :
    after.stream.seeks =
      [.start (handle.stream.content.size - Frame.size handle.stream.trailer .root),
      .fromEnd Frame.trailerSize, .fromEnd 0] ++ handle.stream.seeks := by
  rw [readRoot_eq] at h
  obtain ⟨trailer, located, hroot, hrest⟩ := bind_ok h
  have hread : Keeps Handle.SameSeeks (readLength >>= fun length =>
      if codec.verifyTrailer && length != trailer then throw
        (.malformed (.trailerMismatch trailer length))
      else (readPayload codec length : FrameIO α)) := by
    refine Keeps.bind (Keeps.readLength SameSeeks.read) fun length => ?_
    split
    · exact Keeps.throw _
    · exact Keeps.readPayload SameSeeks.read codec length
  have hsame := hread located
  rw [hrest] at hsame
  exact hsame.trans (seekRoot_sought hcalm hroot)

end FramedTree
