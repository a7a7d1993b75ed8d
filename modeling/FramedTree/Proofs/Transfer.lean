import FramedTree.Frame.Sink
import FramedTree.Proofs.PreservedRelations
import FramedTree.Source

/-! # Reading and writing as byte strings

Whatever chunks a stream moves, reading it without disturbance gives the bytes behind the position,
and data that was written at its end without failure follows what was there. Reading never changes
the bytes of a stream, and what it gives depends on nothing but these bytes and the position.
-/

namespace FramedTree

variable {ε α β : Type}

namespace Transfer

variable {transfer : Transfer α} {handle after : Handle}

theorem toFrameIO_ok {value : α} (h : transfer handle = .ok value after) :
    transfer.toFrameIO handle = .ok value after := by
  rw [toFrameIO, EStateM.adaptExcept, h]

theorem toFrameIO_error {cause : IoError} (h : transfer handle = .error cause after) :
    transfer.toFrameIO handle = .error (.io cause) after := by
  rw [toFrameIO, EStateM.adaptExcept, h]

theorem toFrameIO_eq_ok {value : α} (h : transfer.toFrameIO handle = .ok value after) :
    transfer handle = .ok value after := by
  cases hrun : transfer handle with
  | ok found between =>
    rw [toFrameIO_ok hrun] at h
    cases h
    rfl
  | error cause between =>
    rw [toFrameIO_error hrun] at h
    cases h

theorem toFrameIO_eq_error {error : Error} (h : transfer.toFrameIO handle = .error error after) :
    ∃ cause, error = .io cause ∧ transfer handle = .error cause after := by
  cases hrun : transfer handle with
  | ok found between =>
    rw [toFrameIO_ok hrun] at h
    cases h
  | error cause between =>
    rw [toFrameIO_error hrun] at h
    cases h
    exact ⟨cause, rfl, rfl⟩

private theorem stateAfter_toFrameIO (transfer : Transfer α) (handle : Handle) :
    stateAfter (transfer.toFrameIO handle) = stateAfter (transfer handle) := by
  cases hrun : transfer handle with
  | ok value after => rw [toFrameIO_ok hrun, stateAfter_ok, stateAfter_ok]
  | error cause after => rw [toFrameIO_error hrun, stateAfter_error, stateAfter_error]

end Transfer

theorem Streams.withHandle_apply (id : StreamId) (position : Nat) (activity : FrameIO α)
    (streams : Streams) :
    Streams.withHandle id position activity streams =
      mapState (fun handle => streams.set id handle.stream)
        (activity ⟨streams.get id, position⟩) := by
  unfold Streams.withHandle
  cases activity ⟨streams.get id, position⟩ <;> rfl

/-- What is read from a copy leaves no trace in the streams. -/
theorem Source.withHandle_apply (source : Source) (activity : FrameIO α) (streams : Streams) :
    source.withHandle activity streams =
      if source.isReading then .error (.io .busy) streams
      else match source.backing with
        | .stream id =>
          mapState (fun handle => streams.set id handle.stream) (activity ⟨streams.get id, 0⟩)
        | .copy content => mapState (fun _ => streams) (activity { stream := { content } }) := by
  unfold Source.withHandle
  split
  · rfl
  · cases source.backing with
    | stream id => exact Streams.withHandle_apply id 0 activity streams
    | copy content =>
      dsimp only
      cases activity { stream := { content } } <;> rfl

/-- Reads of the stream are not disturbed, though they may be short. -/
structure Stream.Calm (stream : Stream) : Prop where
  read : stream.faults.read = none
  seek : stream.faults.seek = none
  eofAt : stream.faults.eofAt = none
  chunk : stream.faults.chunk ≠ some 0
  hiccups : stream.faults.readHiccups = []

theorem Stream.calm_mk (content : Array UInt8) (seeks : List SeekTarget) :
    Stream.Calm { content, seeks } := ⟨rfl, rfl, rfl, nofun, rfl⟩

namespace Handle

variable {handle after : Handle}

/-- What is left to read. -/
def ahead (handle : Handle) : Bytes := handle.stream.bytes.drop handle.position

def advance (handle : Handle) (count : Nat) : Handle :=
  { handle with position := handle.position + count }

theorem ahead_advance (handle : Handle) (count : Nat) :
    (handle.advance count).ahead = handle.ahead.drop count := by
  rw [ahead, ahead, List.drop_drop]
  rfl

theorem advance_advance (handle : Handle) (first second : Nat) :
    (handle.advance first).advance second = handle.advance (first + second) := by
  simp only [advance, Nat.add_assoc]

private theorem readOnce_eq (h : handle.stream.Calm) (count : Nat) :
    readOnce count handle =
      .ok (handle.ahead.take (handle.stream.faults.chunkSize count))
        (handle.advance (handle.ahead.take (handle.stream.faults.chunkSize count)).length) := by
  have hvisible : handle.stream.visible = handle.stream.bytes := by
    rw [Stream.visible, h.eofAt]
  have hdata (count : Nat) :
    handle.stream.slice handle.position count = handle.ahead.take count := by
    rw [Stream.slice_eq, hvisible, ahead]
  simp only [readOnce, Faults.readPatience, h.read, h.hiccups, Option.elim_none, List.length_nil,
    Nat.add_zero, Transfer.retrying, read, readPlain, Fault.striking, Option.filter_none,
    Fault.room, hdata]
  rfl

private theorem chunkSize_bounds (h : handle.stream.Calm) {count : Nat} (hcount : count ≠ 0) :
    0 < handle.stream.faults.chunkSize count ∧ handle.stream.faults.chunkSize count ≤ count := by
  have hchunk := h.chunk
  unfold Faults.chunkSize
  cases hbound : handle.stream.faults.chunk with
  | none => exact ⟨Nat.pos_of_ne_zero hcount, Nat.le_refl _⟩
  | some bound =>
    have : bound ≠ 0 := by
      rintro rfl
      exact hchunk hbound
    simp only
    omega

private theorem take_append_take {bytes : Bytes} {size count : Nat} (h : size ≤ count) :
    bytes.take size ++ (bytes.drop (bytes.take size).length).take
      (count - (bytes.take size).length) =
      bytes.take count := by
  rw [List.length_take]
  by_cases hsize : size ≤ bytes.length
  · rw [Nat.min_eq_left hsize, ← List.take_add, Nat.add_sub_cancel' h]
  · have hlength : bytes.length ≤ size := Nat.le_of_not_le hsize
    rw [Nat.min_eq_right hlength, List.drop_length, List.take_nil, List.append_nil,
      List.take_of_length_le hlength, List.take_of_length_le (Nat.le_trans hlength h)]

private theorem gather_eq (h : handle.stream.Calm) {calls count : Nat} (hcalls : count ≤ calls) :
    gather calls count handle =
      .ok (handle.ahead.take count) (handle.advance (handle.ahead.take count).length) := by
  induction calls generalizing handle count with
  | zero =>
    obtain rfl := Nat.le_zero.1 hcalls
    rfl
  | succ calls ih =>
    by_cases hcount : count = 0
    · subst hcount
      rfl
    · obtain ⟨hpos, hle⟩ := chunkSize_bounds h hcount
      rw [gather, if_neg hcount, bind_apply, readOnce_eq h]
      generalize handle.stream.faults.chunkSize count = size at hpos hle
      dsimp only
      by_cases hempty : (handle.ahead.take size).isEmpty
      · have hnil : handle.ahead = [] := by
          cases hahead : handle.ahead with
          | nil => rfl
          | cons byte rest =>
            rw [hahead, List.isEmpty_iff, List.take_eq_nil_iff] at hempty
            rcases hempty with hzero | hcons
            · omega
            · cases hcons
        rw [if_pos hempty, hnil, List.take_nil, List.take_nil]
        rfl
      · rw [if_neg hempty]
        have hmoved : 0 < (handle.ahead.take size).length := by
          rw [List.isEmpty_iff] at hempty
          exact List.length_pos_iff.2 hempty
        have hcalls' : count - (handle.ahead.take size).length ≤ calls := by omega
        have hcalm : (handle.advance (handle.ahead.take size).length).stream.Calm := h
        rw [bind_apply, ih hcalm hcalls', ahead_advance]
        rw [advance_advance, ← List.length_append, take_append_take hle]
        change EStateM.Result.ok _ _ = _
        rw [take_append_take hle]

/-- An undisturbed read gives as many of the bytes ahead as there are. -/
theorem readUpTo_eq (h : handle.stream.Calm) (count : Nat) :
    readUpTo count handle =
      .ok (handle.ahead.take count) (handle.advance (handle.ahead.take count).length) :=
  gather_eq h (Nat.le_refl count)

theorem readExactly_eq (h : handle.stream.Calm) (count : Nat) :
    readExactly count handle =
      if handle.ahead.length <
        count then .error IoError.endOfStream (handle.advance handle.ahead.length)
      else .ok (handle.ahead.take count) (handle.advance count) := by
  rw [readExactly, bind_apply, readUpTo_eq h]
  dsimp only
  rw [List.length_take]
  by_cases hshort : handle.ahead.length < count
  · rw [if_pos hshort, if_pos (by omega), Nat.min_eq_right (by omega)]
    rfl
  · rw [if_neg hshort, if_neg (by omega), Nat.min_eq_left (by omega)]
    rfl

def destination (handle : Handle) : SeekTarget → Nat
  | .start position => position
  | .fromEnd back => handle.stream.content.size - back

theorem seek_eq (h : handle.stream.Calm) (target : SeekTarget) :
    seek target handle =
      .ok (handle.destination target)
        ⟨{ handle.stream with seeks := target :: handle.stream.seeks },
          handle.destination target⟩ := by
  unfold seek
  simp only [h.seek, Option.filter_none]
  cases target <;> rfl

/-- Undisturbed handles at the same position of streams with the same bytes. -/
structure Alike (handle other : Handle) : Prop where
  position_eq : other.position = handle.position
  content_eq : other.stream.content = handle.stream.content
  calm : handle.stream.Calm
  other_calm : other.stream.Calm

private theorem Alike.ahead_eq {other : Handle} (h : handle.Alike other) :
    other.ahead = handle.ahead := by
  rw [ahead, ahead, Stream.bytes, Stream.bytes, h.content_eq, h.position_eq]

private theorem Alike.advance {other : Handle} (h : handle.Alike other) (count : Nat) :
    (handle.advance count).Alike (other.advance count) :=
  ⟨congrArg (· + count) h.position_eq, h.content_eq, h.calm, h.other_calm⟩

end Handle

namespace Frame

theorem readPayload_eq [Message α] (codec : Codec) (length : Nat) :
    (readPayload codec length : FrameIO α) =
      if codec.maxFrameLen.toNat < length then
        throw (.malformed (.frameTooLarge length codec.maxFrameLen.toNat))
      else (Handle.readUpTo length).toFrameIO >>= fun payload =>
        if payload.length < length then throw (.malformed (.truncatedPayload length payload.length))
        else
          (match Message.decode payload with
          | .ok value => pure value
          | .error error => throw (.decode error)) := by
  rfl

theorem seekRoot_eq :
    seekRoot = (Handle.seek (.fromEnd 0)).toFrameIO >>= fun streamLen =>
      if streamLen < minimumRootSize then throw
        (.malformed (.streamTooShort streamLen minimumRootSize))
      else (Handle.seek (.fromEnd trailerSize)).toFrameIO >>= fun _ =>
        (Handle.readExactly trailerSize).toFrameIO >>= fun data =>
          if streamLen < size (Bytes.toNat data) .root then
            throw (.malformed (.trailerOutOfRange (Bytes.toNat data) streamLen))
          else
            (Handle.seek (.start (streamLen - size (Bytes.toNat data) .root))).toFrameIO >>=
              fun _ =>
              pure (Bytes.toNat data) := by
  simp only [seekRoot, discard_bind]
  rfl

theorem readRoot_eq [Message α] (codec : Codec) :
    (readRoot codec : FrameIO α) =
      seekRoot >>= fun trailer => readLength >>= fun length =>
        if codec.verifyTrailer && length != trailer then throw
          (.malformed (.trailerMismatch trailer length))
        else readPayload codec length := by
  rfl

/-- A root frame whose trailer and length agree is read for its payload. -/
theorem readRoot_of_trailer [Message α] {handle start between : Handle} {length : Nat}
    (codec : Codec) (hseek : seekRoot handle = .ok length start)
    (hlength : readLength start = .ok length between) :
    (readRoot codec : FrameIO α) handle = readPayload codec length between := by
  rw [readRoot_eq, bind_apply, hseek]
  dsimp only
  rw [bind_apply, hlength]
  dsimp only
  rw [bne_self_eq_false, Bool.and_false, if_neg Bool.false_ne_true]

end Frame

/-- An activity that leaves the bytes of a stream alone, and whose outcome, as long as it is not
disturbed, depends on nothing but these bytes and the position. -/
def Steady (activity : EStateM ε Handle α) : Prop :=
  ∀ handle other : Handle, handle.Alike other →
    (∃ value after after', activity handle = .ok value after ∧ activity other = .ok value after' ∧
      after.Alike after' ∧ after.stream.content = handle.stream.content) ∨
    (∃ error after after', activity handle = .error error after ∧
      activity other = .error error after' ∧
      after.Alike after' ∧ after.stream.content = handle.stream.content)

namespace Steady

private theorem pure (value : α) : Steady (Pure.pure value : EStateM ε Handle α) :=
  fun _ _ h => .inl ⟨value, _, _, rfl, rfl, h, rfl⟩

private theorem throw (error : ε) : Steady (MonadExcept.throw error : EStateM ε Handle α) :=
  fun _ _ h => .inr ⟨error, _, _, rfl, rfl, h, rfl⟩

theorem bind {activity : EStateM ε Handle α} {next : α → EStateM ε Handle β} (h : Steady activity)
    (hnext : ∀ value, Steady (next value)) : Steady (activity >>= next) := by
  intro handle other halike
  rcases h handle other halike with ⟨value, between, between', hrun, hrun', hbetween, hcontent⟩ |
    ⟨error, after, after', hrun, hrun', hafter, hcontent⟩
  · rw [bind_apply, bind_apply, hrun, hrun', ← hcontent]
    exact hnext value _ _ hbetween
  · rw [bind_apply, bind_apply, hrun, hrun']
    exact .inr ⟨error, after, after', rfl, rfl, hafter, hcontent⟩

theorem toFrameIO {transfer : Transfer α} (h : Steady transfer) : Steady transfer.toFrameIO := by
  intro handle other halike
  rcases h handle other halike with ⟨value, after, after', hrun, hrun', hrest⟩ |
    ⟨error, after, after', hrun, hrun', hrest⟩
  · exact .inl ⟨value, after, after', Transfer.toFrameIO_ok hrun,
      Transfer.toFrameIO_ok hrun', hrest⟩
  · exact .inr ⟨.io error, after, after', Transfer.toFrameIO_error hrun,
      Transfer.toFrameIO_error hrun', hrest⟩

private theorem readUpTo (count : Nat) : Steady (Handle.readUpTo count) := by
  intro handle other halike
  rw [Handle.readUpTo_eq halike.calm, Handle.readUpTo_eq halike.other_calm, halike.ahead_eq]
  exact .inl ⟨_, _, _, rfl, rfl, halike.advance _, rfl⟩

private theorem readExactly (count : Nat) : Steady (Handle.readExactly count) := by
  refine Steady.bind (Steady.readUpTo count) fun data => ?_
  split
  · exact Steady.bind (Steady.throw _) fun _ => Steady.pure _
  · exact Steady.pure _

theorem seek (target : SeekTarget) : Steady (Handle.seek target) := by
  intro handle other halike
  have hdestination : other.destination target = handle.destination target := by
    cases target with
    | start position => rfl
    | fromEnd back => rw [Handle.destination, Handle.destination, halike.content_eq]
  rw [Handle.seek_eq halike.calm, Handle.seek_eq halike.other_calm, hdestination]
  refine .inl ⟨_, _, _, rfl, rfl, ⟨rfl, halike.content_eq, ?_, ?_⟩, rfl⟩
  · exact ⟨halike.calm.read, halike.calm.seek, halike.calm.eofAt, halike.calm.chunk,
      halike.calm.hiccups⟩
  · exact ⟨halike.other_calm.read, halike.other_calm.seek, halike.other_calm.eofAt,
      halike.other_calm.chunk, halike.other_calm.hiccups⟩

theorem readToEnd : Steady Handle.readToEnd := by
  intro handle other halike
  have hread :=
    Steady.readUpTo (handle.stream.content.size - handle.position + 1) handle other halike
  unfold Handle.readToEnd
  rw [get_bind_apply, get_bind_apply, halike.content_eq, halike.position_eq]
  exact hread

private theorem readLengthByte : Steady Frame.readLengthByte := by
  intro handle other halike
  unfold Frame.readLengthByte
  rcases Steady.readExactly 1 handle other halike with ⟨data, after, after', hrun, hrun', hafter,
    hcontent⟩ |
    ⟨error, after, after', hrun, hrun', hafter, hcontent⟩
  · rw [hrun, hrun']
    exact .inl ⟨_, after, after', rfl, rfl, hafter, hcontent⟩
  · rw [hrun, hrun']
    dsimp only
    split
    · exact .inr ⟨_, after, after', rfl, rfl, hafter, hcontent⟩
    · exact .inr ⟨_, after, after', rfl, rfl, hafter, hcontent⟩

private theorem readLength : Steady Frame.readLength := by
  have hbytes (left : Nat) : Steady (Frame.readLengthBytes left) := by
    induction left with
    | zero => exact Steady.throw _
    | succ left ih =>
      refine Steady.bind Steady.readLengthByte fun byte => ?_
      split
      · exact Steady.pure _
      · exact Steady.bind ih fun _ => Steady.pure _
  refine Steady.bind (hbytes _) fun bytes => ?_
  split
  · split
    · exact Steady.pure _
    · exact Steady.throw _
  · exact Steady.throw _

private theorem readPayload [Message α] (codec : Codec) (length : Nat) :
    Steady (Frame.readPayload codec length : FrameIO α) := by
  rw [Frame.readPayload_eq]
  split
  · exact Steady.throw _
  · refine Steady.bind (Steady.toFrameIO (Steady.readUpTo length)) fun payload => ?_
    split
    · exact Steady.throw _
    · split
      · exact Steady.pure _
      · exact Steady.throw _

theorem readAt [Message α] (codec : Codec) (position : Nat) :
    Steady (Frame.readAt codec position : FrameIO α) := by
  refine Steady.bind (Steady.bind (Steady.toFrameIO (Steady.seek _)) fun _ => Steady.pure _)
    fun _ => ?_
  exact Steady.bind Steady.readLength fun length => Steady.readPayload codec length

theorem readRoot [Message α] (codec : Codec) : Steady (Frame.readRoot codec : FrameIO α) := by
  have hroot : Steady Frame.seekRoot := by
    rw [Frame.seekRoot_eq]
    refine Steady.bind (Steady.toFrameIO (Steady.seek _)) fun streamLen => ?_
    split
    · exact Steady.throw _
    · refine Steady.bind (Steady.toFrameIO (Steady.seek _)) fun _ => ?_
      refine Steady.bind (Steady.toFrameIO (Steady.readExactly _)) fun data => ?_
      split
      · exact Steady.throw _
      · exact Steady.bind (Steady.toFrameIO (Steady.seek _)) fun _ => Steady.pure _
  rw [Frame.readRoot_eq]
  refine Steady.bind hroot fun trailer => Steady.bind Steady.readLength fun length => ?_
  split
  · exact Steady.throw _
  · exact Steady.readPayload codec length

end Steady

/-! What every single read call keeps, reading frames keeps, also when it is disturbed. -/

namespace Keeps

variable {R : Handle → Handle → Prop} [IsPreorder Handle R]

theorem retrying {call : Transfer α} (h : Keeps R call) (patience : Nat) :
    Keeps R (Transfer.retrying call patience) := by
  induction patience with
  | zero => exact h
  | succ patience ih =>
    intro handle
    have hcall := h handle
    unfold Transfer.retrying
    cases hrun : call handle with
    | ok value after =>
      rw [hrun] at hcall
      exact hcall
    | error error after =>
      rw [hrun] at hcall
      dsimp only
      split
      · exact trans_of R hcall (ih after)
      · exact hcall

omit [IsPreorder Handle R] in
theorem toFrameIO {transfer : Transfer α} (h : Keeps R transfer) : Keeps R transfer.toFrameIO := by
  intro handle
  rw [Transfer.stateAfter_toFrameIO]
  exact h handle

theorem read (hplain : ∀ count, Keeps R (Handle.readPlain count))
    (hdrop : ∀ handle : Handle, R handle handle.dropReadHiccup) (count : Nat) :
    Keeps R (Handle.read count) := by
  intro handle
  unfold Handle.read
  split
  · exact hplain count handle
  · exact hdrop handle
  · exact trans_of R (hdrop handle) (hplain _ handle.dropReadHiccup)

private theorem gather (hread : ∀ count, Keeps R (Handle.read count)) (calls count : Nat) :
    Keeps R (Handle.gather calls count) := by
  induction calls generalizing count with
  | zero => exact Keeps.pure _
  | succ calls ih =>
    unfold Handle.gather
    split
    · exact Keeps.pure _
    · refine Keeps.bind (fun handle => retrying (hread count) _ handle) fun data => ?_
      split
      · exact Keeps.pure _
      · exact Keeps.bind (ih _) fun _ => Keeps.pure _

private theorem readExactly (hread : ∀ count, Keeps R (Handle.read count)) (count : Nat) :
    Keeps R (Handle.readExactly count) := by
  refine Keeps.bind (gather hread count count) fun data => ?_
  split
  · exact Keeps.bind (Keeps.throw _) fun _ => Keeps.pure _
  · exact Keeps.pure _

theorem readLength (hread : ∀ count, Keeps R (Handle.read count)) : Keeps R Frame.readLength := by
  have hbyte : Keeps R Frame.readLengthByte := by
    intro handle
    have hexactly := readExactly hread 1 handle
    unfold Frame.readLengthByte
    cases hrun : Handle.readExactly 1 handle with
    | ok data after =>
      rw [hrun] at hexactly
      exact hexactly
    | error error after =>
      rw [hrun] at hexactly
      dsimp only
      split <;> exact hexactly
  have hbytes (left : Nat) : Keeps R (Frame.readLengthBytes left) := by
    induction left with
    | zero => exact Keeps.throw _
    | succ left ih =>
      refine Keeps.bind hbyte fun byte => ?_
      split
      · exact Keeps.pure _
      · exact Keeps.bind ih fun _ => Keeps.pure _
  refine Keeps.bind (hbytes _) fun bytes => ?_
  split
  · split
    · exact Keeps.pure _
    · exact Keeps.throw _
  · exact Keeps.throw _

theorem readPayload [Message α] (hread : ∀ count, Keeps R (Handle.read count)) (codec : Codec)
    (length : Nat) :
    Keeps R (Frame.readPayload codec length : FrameIO α) := by
  rw [Frame.readPayload_eq]
  split
  · exact Keeps.throw _
  · refine Keeps.bind (toFrameIO (gather hread length length)) fun payload => ?_
    split
    · exact Keeps.throw _
    · split
      · exact Keeps.pure _
      · exact Keeps.throw _

theorem readNested [Message α] (hread : ∀ count, Keeps R (Handle.read count)) (codec : Codec) :
    Keeps R (Frame.readNested codec : FrameIO α) :=
  Keeps.bind (readLength hread) fun length => readPayload hread codec length

end Keeps

def Handle.Untouched (before after : Handle) : Prop := after.stream.content = before.stream.content

instance : IsPreorder Handle Handle.Untouched where
  refl _ := rfl
  trans _ _ _ hab hbc := hbc.trans hab

namespace Untouched

private theorem readPlain (count : Nat) : Keeps Handle.Untouched (Handle.readPlain count) := by
  intro handle
  unfold Handle.readPlain
  dsimp only
  split
  · rfl
  · split <;> rfl

private theorem read (count : Nat) :
    Keeps Handle.Untouched (Handle.read count) := Keeps.read readPlain (fun _ => rfl) count

private theorem seek (target : SeekTarget) : Keeps Handle.Untouched (Handle.seek target) := by
  intro handle
  unfold Handle.seek
  dsimp only
  generalize handle.stream.faults.seek.filter (·.isActive) = fault
  cases fault with
  | none => cases target <;> rfl
  | some fault =>
    dsimp only
    split
    · rfl
    · cases fault.effect <;> rfl

theorem readAt [Message α] (codec : Codec) (position : Nat) :
    Keeps Handle.Untouched (Frame.readAt codec position : FrameIO α) :=
  Keeps.bind (Keeps.map _ (Keeps.toFrameIO (seek _))) fun _ => Keeps.readNested read codec

theorem readRoot [Message α] (codec : Codec) :
    Keeps Handle.Untouched (Frame.readRoot codec : FrameIO α) := by
  have hroot : Keeps Handle.Untouched Frame.seekRoot := by
    rw [Frame.seekRoot_eq]
    refine Keeps.bind (Keeps.toFrameIO (seek _)) fun streamLen => ?_
    split
    · exact Keeps.throw _
    · refine Keeps.bind (Keeps.toFrameIO (seek _)) fun _ => ?_
      refine Keeps.bind (Keeps.toFrameIO (Keeps.readExactly read _)) fun data => ?_
      split
      · exact Keeps.throw _
      · exact Keeps.bind (Keeps.toFrameIO (seek _)) fun _ => Keeps.pure _
  rw [Frame.readRoot_eq]
  refine Keeps.bind hroot fun trailer => Keeps.bind (Keeps.readLength read) fun length => ?_
  split
  · exact Keeps.throw _
  · exact Keeps.readPayload read codec length

end Untouched
end FramedTree
