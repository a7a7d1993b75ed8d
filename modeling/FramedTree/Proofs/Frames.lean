import FramedTree.Proofs.Transfer
import FramedTree.Proofs.Wire

/-! # Frames read back

A frame that stands somewhere among the bytes of a stream is read back from its position, and one
that stands at the end is read back as the root frame. A frame that was written to the end of a
stream without failure stands there, whatever chunks the stream took it in.
-/

namespace FramedTree

variable {α : Type}

/-- What a frame announces and holds. -/
theorem Frame.encode_ok [Message α] [LawfulMessage α] {codec : Codec} {kind : FrameKind} {value : α}
    {frame : Bytes} (h : Frame.encode codec kind value = .ok frame) :
    (Message.encode value).length ≤ codec.maxFrameLen.toNat ∧
      frame = Varint.encode (Message.encode value).length ++ Message.encode value ++
        Frame.trailer kind (Message.encode value).length := by
  rw [Frame.encode, Frame.wrap, ← LawfulMessage.length_encode] at h
  split at h
  case isTrue => cases h
  case isFalse hsize =>
    cases h
    exact ⟨Nat.le_of_not_lt hsize, rfl⟩

theorem Frame.length_encode [Message α] [LawfulMessage α] {codec : Codec} {kind : FrameKind}
    {value : α} {frame : Bytes} (h : Frame.encode codec kind value = .ok frame) :
    frame.length = Frame.size (Message.encode value).length kind := by
  rw [(Frame.encode_ok h).2, List.length_append, List.length_append, Varint.length_encode]
  cases kind <;> rfl

theorem Frame.encode_ne_nil [Message α] [LawfulMessage α] {codec : Codec} {kind : FrameKind}
    {value : α} {frame : Bytes} (h : Frame.encode codec kind value = .ok frame) : frame ≠ [] := by
  intro hnil
  have hlength := Frame.length_encode h
  rw [hnil, List.length_nil] at hlength
  simp only [Frame.size, Varint.size] at hlength
  omega

/-- The frame of a message stands at a position of some bytes. -/
def Frame.At [Message α] (codec : Codec) (value : α) (bytes : Bytes) (position : Nat) : Prop :=
  ∃ frame rest, Frame.encode codec .nested value = .ok frame ∧ bytes.drop position = frame ++ rest

/-- A frame starts before the bytes end. -/
theorem Frame.At.position_lt [Message α] [LawfulMessage α] {codec : Codec} {value : α}
    {bytes : Bytes} {position : Nat} (h : Frame.At codec value bytes position) :
    position < bytes.length := by
  obtain ⟨frame, rest, hencode, hbytes⟩ := h
  apply Nat.lt_of_not_le
  intro hpast
  rw [List.drop_eq_nil_of_le hpast] at hbytes
  exact Frame.encode_ne_nil hencode (List.append_eq_nil_iff.1 hbytes.symm).1

section Reading

variable {handle : Handle}

theorem Frame.readLengthByte_eq (h : handle.stream.Calm) {byte : UInt8} {rest : Bytes}
    (hahead : handle.ahead = byte :: rest) :
    readLengthByte handle = .ok byte (handle.advance 1) := by
  have hlong : ¬ handle.ahead.length < 1 := by
    rw [hahead]
    exact Nat.not_lt_of_le (Nat.succ_le_succ (Nat.zero_le _))
  rw [readLengthByte, Handle.readExactly_eq h, if_neg hlong, hahead]
  rfl

private theorem Frame.readLengthBytes_eq (h : handle.stream.Calm) {n left : Nat} {rest : Bytes}
    (hahead : handle.ahead = Varint.encode n ++ rest) (hleft : Varint.size n ≤ left) :
    readLengthBytes left handle = .ok (Varint.encode n) (handle.advance (Varint.size n)) := by
  rw [← Varint.length_encode] at hleft ⊢
  fun_induction Varint.encode n generalizing handle left with
  | case1 n hn =>
    have hbyte : n.toUInt8.toNat < 128 := by
      simp only [Nat.toUInt8, UInt8.toNat_ofNat']
      omega
    cases left with
    | zero => cases hleft
    | succ left =>
      rw [readLengthBytes, bind_apply, readLengthByte_eq h hahead]
      dsimp only
      rw [if_pos hbyte]
      rfl
  | case2 n hn ih =>
    have hbyte : ¬ (n % 128 + 128).toUInt8.toNat < 128 := by
      simp only [Nat.toUInt8, UInt8.toNat_ofNat']
      omega
    cases left with
    | zero => cases hleft
    | succ left =>
      have hrest : (handle.advance 1).ahead = Varint.encode (n / 128) ++ rest := by
        rw [Handle.ahead_advance, hahead]
        rfl
      have hcalm : (handle.advance 1).stream.Calm := h
      rw [readLengthBytes, bind_apply, readLengthByte_eq h hahead]
      dsimp only
      rw [if_neg hbyte, bind_apply, ih hcalm hrest (Nat.le_of_succ_le_succ hleft),
        Handle.advance_advance, Nat.add_comm 1]
      rfl

theorem Frame.readLength_eq (h : handle.stream.Calm) {n : Nat} {rest : Bytes} (hn : n < 2 ^ 32)
    (hahead : handle.ahead = Varint.encode n ++ rest) :
    readLength handle = .ok n (handle.advance (Varint.size n)) := by
  have hsize : Varint.size n ≤ Varint.maxSize := by
    rw [Varint.size, Varint.maxSize]
    by_cases hzero : n = 0
    · subst hzero
      decide
    · have := (Nat.log2_lt hzero).2 hn
      omega
  have hdecode := Varint.decode_encode_append n [] (Nat.lt_trans hn (by decide))
  rw [List.append_nil] at hdecode
  rw [readLength, bind_apply, readLengthBytes_eq h hahead hsize]
  dsimp only
  rw [hdecode]
  dsimp only
  have hfits : n < UInt32.size := hn
  rw [if_pos hfits]
  rfl

/-- What comes of decoding some bytes for a reader that they leave at `after`. -/
def decoded (result : Except DecodeError α) (after : Handle) : EStateM.Result Error Handle α :=
  match result with
  | .ok message => .ok message after
  | .error error => .error (.decode error) after

@[simp] theorem stateAfter_decoded (result : Except DecodeError α) (after : Handle) :
    stateAfter (decoded result after) = after := by
  cases result <;> rfl

private theorem Frame.readPayload_decoded [Message α] (h : handle.stream.Calm) {codec : Codec}
    {payload rest : Bytes} (hsize : payload.length ≤ codec.maxFrameLen.toNat)
    (hahead : handle.ahead = payload ++ rest) :
    readPayload codec payload.length handle =
      decoded (Message.decode payload : Except _ α) (handle.advance payload.length) := by
  have hdata : handle.ahead.take payload.length = payload := by
    rw [hahead, List.take_left]
  have hread : (Handle.readUpTo payload.length).toFrameIO handle =
    .ok payload (handle.advance payload.length) := by
    refine Transfer.toFrameIO_ok ?_
    rw [Handle.readUpTo_eq h, hdata]
  rw [readPayload_eq, if_neg (Nat.not_lt_of_le hsize), bind_apply, hread]
  dsimp only
  rw [if_neg (Nat.lt_irrefl _)]
  cases (Message.decode payload : Except _ α) <;> rfl

private theorem Frame.readPayload_ok [Message α] (h : handle.stream.Calm) {codec : Codec}
    {payload rest : Bytes} {value : α} (hsize : payload.length ≤ codec.maxFrameLen.toNat)
    (hahead : handle.ahead = payload ++ rest) (hdecode : Message.decode payload = .ok value) :
    readPayload codec payload.length handle = .ok value (handle.advance payload.length) := by
  rw [readPayload_decoded h hsize hahead, hdecode]
  rfl

/-- A nested read takes the length and the payload that lie ahead. -/
theorem Frame.readNested_decoded [Message α] (h : handle.stream.Calm) {codec : Codec}
    {payload rest : Bytes} (hsize : payload.length ≤ codec.maxFrameLen.toNat)
    (hahead : handle.ahead = Varint.encode payload.length ++ payload ++ rest) :
    readNested codec handle = decoded (Message.decode payload : Except _ α)
      (handle.advance (Varint.encode payload.length ++ payload).length) := by
  have hshort : payload.length < 2 ^ 32 := Nat.lt_of_le_of_lt hsize codec.maxFrameLen.toNat_lt
  rw [List.append_assoc] at hahead
  have hrest : (handle.advance (Varint.size payload.length)).ahead = payload ++ rest := by
    rw [Handle.ahead_advance, hahead, ← Varint.length_encode, List.drop_left]
  have hcalm : (handle.advance (Varint.size payload.length)).stream.Calm := h
  rw [readNested, bind_apply, readLength_eq h hshort hahead]
  dsimp only
  rw [readPayload_decoded hcalm hsize hrest, Handle.advance_advance, List.length_append,
    Varint.length_encode]

private theorem Frame.readNested_ok [Message α] [LawfulMessage α] (h : handle.stream.Calm)
    {codec : Codec} {value : α} {rest : Bytes}
    (hsize : (Message.encode value).length ≤ codec.maxFrameLen.toNat)
    (hahead : handle.ahead =
      Varint.encode (Message.encode value).length ++ (Message.encode value ++ rest)) :
    ∃ after, readLength handle = .ok (Message.encode value).length after ∧ after.stream.Calm ∧
      ∃ last, readPayload codec (Message.encode value).length after = .ok value last := by
  have hshort : (Message.encode value).length < 2 ^ 32 :=
    Nat.lt_of_le_of_lt hsize codec.maxFrameLen.toNat_lt
  have hrest : (handle.advance (Varint.size (Message.encode value).length)).ahead =
      Message.encode value ++ rest := by
    rw [Handle.ahead_advance, hahead, ← Varint.length_encode, List.drop_left]
  have hcalm : (handle.advance (Varint.size (Message.encode value).length)).stream.Calm := h
  exact ⟨_, readLength_eq h hshort hahead, hcalm, _, readPayload_ok hcalm hsize hrest
    (LawfulMessage.decode_encode value (Nat.lt_trans hshort (by decide)))⟩

theorem Handle.seek_ok (h : handle.stream.Calm) (target : SeekTarget) :
    ∃ after, (Handle.seek target).toFrameIO handle = .ok (handle.destination target) after ∧
      after.stream.Calm ∧ after.stream.content = handle.stream.content ∧
      after.position = handle.destination target := by
  refine ⟨⟨{ handle.stream with seeks := target :: handle.stream.seeks },
    handle.destination target⟩, ?_, ⟨h.read, h.seek, h.eofAt, h.chunk, h.hiccups⟩, rfl, rfl⟩
  exact Transfer.toFrameIO_ok (Handle.seek_eq h target)

/-- A frame is read back from its position. -/
theorem Frame.readAt_ok [Message α] [LawfulMessage α] (h : handle.stream.Calm) {codec : Codec}
    {value : α} {position : Nat} (hframe : Frame.At codec value handle.stream.bytes position) :
    ∃ after, readAt codec position handle = .ok value after := by
  obtain ⟨frame, rest, hencode, hbytes⟩ := hframe
  obtain ⟨hsize, hframe⟩ := encode_ok hencode
  obtain ⟨after, hseek, hcalm, hcontent, hposition⟩ := Handle.seek_ok h (.start position)
  have hahead : after.ahead =
      Varint.encode (Message.encode value).length ++ (Message.encode value ++ rest) := by
    rw [Handle.ahead, Stream.bytes, hcontent, hposition]
    change handle.stream.bytes.drop position = _
    rw [hbytes, hframe, trailer, List.append_nil, List.append_assoc]
  obtain ⟨between, hlength, -, last, hpayload⟩ := readNested_ok hcalm hsize hahead
  refine ⟨last, ?_⟩
  rw [readAt, discard_bind, bind_apply, hseek]
  dsimp only
  rw [readNested, bind_apply, hlength]
  exact hpayload

/-- The trailer leads from the end of a stream to the start of its last frame. -/
theorem Frame.seekRoot_ok (h : handle.stream.Calm) {length : Nat} {before payload : Bytes}
    (hlength : length < 2 ^ 32) (hpayload : payload.length = length)
    (hbytes : handle.stream.bytes =
      before ++ (Varint.encode length ++ payload ++ trailer .root length)) :
    ∃ after, seekRoot handle = .ok length after ∧ after.stream.Calm ∧
      after.ahead = Varint.encode length ++ payload ++ trailer .root length := by
  have htrailer : (trailer .root length).length = trailerSize := rfl
  have hvalue : Bytes.toNat (trailer .root length) = length := by
    rw [trailer, Bytes.toNat_ofWord32]
    exact Nat.mod_eq_of_lt hlength
  have hframe : (Varint.encode length ++ payload ++ trailer .root length).length =
    size length .root := by
    simp only [List.length_append, Varint.length_encode, hpayload, htrailer, size]
  have htotal : handle.stream.content.size = before.length + size length .root := by
    rw [← hframe, ← List.length_append, ← hbytes]
    rfl
  have hlong : minimumRootSize ≤ size length .root := by
    simp only [minimumRootSize, size, Varint.size]
    omega
  obtain ⟨first, hseek₁, hcalm₁, hcontent₁, -⟩ := Handle.seek_ok h (.fromEnd 0)
  obtain ⟨second, hseek₂, hcalm₂, hcontent₂, hposition₂⟩ :=
    Handle.seek_ok hcalm₁ (.fromEnd trailerSize)
  have hahead₂ : second.ahead = trailer .root length := by
    have hskip : second.position = (before ++ (Varint.encode length ++ payload)).length := by
      rw [hposition₂, Handle.destination, hcontent₁, htotal, List.length_append, List.length_append,
        Varint.length_encode, hpayload]
      simp only [size, trailerSize]
      omega
    rw [Handle.ahead, Stream.bytes, hcontent₂, hcontent₁]
    change handle.stream.bytes.drop second.position = _
    rw [hbytes, ← List.append_assoc, hskip, List.drop_left]
  have hread : (Handle.readExactly trailerSize).toFrameIO second =
      .ok (trailer .root length) (second.advance trailerSize) := by
    refine Transfer.toFrameIO_ok ?_
    rw [Handle.readExactly_eq hcalm₂, hahead₂, htrailer, if_neg (Nat.lt_irrefl _)]
    rfl
  have hcalm₃ : (second.advance trailerSize).stream.Calm := hcalm₂
  obtain ⟨third, hseek₃, hcalm₄, hcontent₃, hposition₃⟩ :=
    Handle.seek_ok hcalm₃ (.start (handle.stream.content.size - size length .root))
  refine ⟨third, ?_, hcalm₄, ?_⟩
  · rw [seekRoot_eq, bind_apply, hseek₁]
    dsimp only
    rw [Handle.destination, Nat.sub_zero, if_neg (by omega), bind_apply, hseek₂]
    dsimp only
    rw [bind_apply, hread]
    dsimp only
    rw [hvalue, if_neg (by omega), bind_apply, hseek₃]
    rfl
  · have hskip : third.position = before.length := by
      rw [hposition₃, Handle.destination, htotal, Nat.add_sub_cancel]
    rw [Handle.ahead, Stream.bytes, hcontent₃]
    change second.stream.content.toList.drop third.position = _
    rw [hcontent₂, hcontent₁]
    change handle.stream.bytes.drop third.position = _
    rw [hbytes, hskip, List.drop_left]

/-- The last frame of a stream is read back as its root frame. -/
theorem Frame.readRoot_ok [Message α] [LawfulMessage α] (h : handle.stream.Calm) {codec : Codec}
    {value : α} {before frame : Bytes} (hencode : Frame.encode codec .root value = .ok frame)
    (hbytes : handle.stream.bytes = before ++ frame) :
    ∃ after, readRoot codec handle = .ok value after := by
  obtain ⟨hsize, hframe⟩ := encode_ok hencode
  have hshort : (Message.encode value).length < 2 ^ 32 :=
    Nat.lt_of_le_of_lt hsize codec.maxFrameLen.toNat_lt
  rw [hframe] at hbytes
  obtain ⟨start, hseek, hcalm, hahead⟩ := seekRoot_ok h hshort rfl hbytes
  rw [List.append_assoc] at hahead
  obtain ⟨between, hlength, -, last, hpayload⟩ := readNested_ok hcalm hsize hahead
  refine ⟨last, ?_⟩
  rw [readRoot_of_trailer codec hseek hlength]
  exact hpayload

end Reading

section Writing

variable {handle after : Handle}

def Handle.AtEnd (handle : Handle) : Prop := handle.position = handle.stream.content.size

private theorem Fault.portion_prefix (fault : Option Fault) (position : Nat) (data : Bytes) :
    Fault.portion fault position data <+: data := by
  unfold Fault.portion
  split
  · exact List.take_prefix _ _
  · exact List.prefix_refl _

private theorem Faults.chunkOf_prefix (faults : Faults) (data : Bytes) :
    faults.chunkOf data <+: data := by
  unfold Faults.chunkOf
  split
  · exact List.take_prefix _ _
  · exact List.prefix_refl _

private theorem Handle.writePlain_ok {data : Bytes} {taken : Nat} (hend : handle.AtEnd)
    (h : Handle.writePlain data handle = .ok taken after) :
    after.AtEnd ∧ after.stream.bytes = handle.stream.bytes ++ data.take taken := by
  obtain ⟨⟨content, faults, seeks⟩, position⟩ := handle
  replace hend : position = content.size := hend
  subst hend
  unfold Handle.writePlain at h
  cases hstrike : Fault.striking faults.write content.size with
  | none =>
    simp only [hstrike] at h
    cases h
    have hprefix := (Fault.portion_prefix faults.write content.size (faults.chunkOf data)).trans
      (faults.chunkOf_prefix data)
    generalize Fault.portion faults.write content.size (faults.chunkOf data) = part at hprefix
    rw [← List.prefix_iff_eq_take.1 hprefix]
    have hbytes := Stream.toList_overwrite_size content part
    constructor
    · have hlength := congrArg List.length hbytes
      simp only [Array.length_toList, List.length_append] at hlength
      exact hlength.symm
    · exact hbytes
  | some fault =>
    simp only [hstrike] at h
    cases heffect : fault.effect with
    | fail error =>
      rw [heffect] at h
      cases h
    | stall =>
      rw [heffect] at h
      cases h
      exact ⟨rfl, by rw [List.take_zero, List.append_nil]; rfl⟩

private theorem Handle.length_le_of_writePlain {data : Bytes} {taken : Nat}
    (h : Handle.writePlain data handle = .ok taken after) : taken ≤ data.length := by
  obtain ⟨⟨content, faults, seeks⟩, position⟩ := handle
  unfold Handle.writePlain at h
  cases hstrike : Fault.striking faults.write position with
  | none =>
    simp only [hstrike] at h
    cases h
    exact ((Fault.portion_prefix faults.write position (faults.chunkOf data)).trans
      (faults.chunkOf_prefix data)).length_le
  | some fault =>
    simp only [hstrike] at h
    cases heffect : fault.effect with
    | fail error =>
      rw [heffect] at h
      cases h
    | stall =>
      rw [heffect] at h
      cases h
      exact Nat.zero_le _

private theorem Handle.write_ok {data : Bytes} {taken : Nat} (hend : handle.AtEnd)
    (h : Handle.write data handle = .ok taken after) :
    after.AtEnd ∧ after.stream.bytes = handle.stream.bytes ++ data.take taken := by
  obtain ⟨⟨content, faults, seeks⟩, position⟩ := handle
  unfold Handle.write at h
  dsimp only at h
  split at h
  · exact Handle.writePlain_ok hend h
  · cases h
  case h_3 extra rest _ =>
    have hstart : Handle.AtEnd ⟨⟨content, { faults with writeHiccups := rest }, seeks⟩, position⟩ :=
      hend
    obtain ⟨hafter, hbytes⟩ := Handle.writePlain_ok hstart h
    have htaken := Handle.length_le_of_writePlain h
    rw [List.length_take] at htaken
    rw [List.take_take, Nat.min_eq_left (by omega)] at hbytes
    exact ⟨hafter, hbytes⟩

private theorem Handle.writePlain_error {data : Bytes} {error : IoError}
    (h : Handle.writePlain data handle = .error error after) :
    after.position = handle.position ∧ after.stream.content = handle.stream.content := by
  obtain ⟨⟨content, faults, seeks⟩, position⟩ := handle
  unfold Handle.writePlain at h
  cases hstrike : Fault.striking faults.write position with
  | none =>
    simp only [hstrike] at h
    cases h
  | some fault =>
    simp only [hstrike] at h
    cases heffect : fault.effect with
    | fail error =>
      rw [heffect] at h
      cases h
      exact ⟨rfl, rfl⟩
    | stall =>
      rw [heffect] at h
      cases h

theorem Handle.write_error {data : Bytes} {error : IoError}
    (h : Handle.write data handle = .error error after) :
    after.position = handle.position ∧ after.stream.content = handle.stream.content := by
  obtain ⟨⟨content, faults, seeks⟩, position⟩ := handle
  unfold Handle.write at h
  dsimp only at h
  split at h
  · exact Handle.writePlain_error h
  · cases h
    exact ⟨rfl, rfl⟩
  · have hplain := Handle.writePlain_error h
    exact hplain

/-- Interruptions before a write call succeeds leave no trace in the bytes. -/
theorem Handle.retrying_write_ok {data : Bytes} {taken patience : Nat} (hend : handle.AtEnd)
    (h : Transfer.retrying (Handle.write data) patience handle = .ok taken after) :
    after.AtEnd ∧ after.stream.bytes = handle.stream.bytes ++ data.take taken := by
  induction patience generalizing handle with
  | zero => exact Handle.write_ok hend h
  | succ patience ih =>
    unfold Transfer.retrying at h
    cases hcall : Handle.write data handle with
    | ok value between =>
      rw [hcall] at h
      cases h
      exact Handle.write_ok hend hcall
    | error error between =>
      rw [hcall] at h
      dsimp only at h
      split at h
      case isFalse => cases h
      case isTrue =>
        obtain ⟨hposition, hcontent⟩ := Handle.write_error hcall
        have hbetween : between.AtEnd := by
          rw [Handle.AtEnd, hposition, hcontent]
          exact hend
        rw [← show between.stream.bytes = handle.stream.bytes from congrArg Array.toList hcontent]
        exact ih hbetween h

private theorem Handle.pour_ok {data : Bytes} {calls : Nat} (hcalls : data.length ≤ calls)
    (hend : handle.AtEnd) (h : Handle.pour calls data handle = .ok () after) :
    after.AtEnd ∧ after.stream.bytes = handle.stream.bytes ++ data := by
  induction calls generalizing handle data with
  | zero =>
    obtain rfl := List.length_eq_zero_iff.1 (Nat.le_zero.1 hcalls)
    cases h
    exact ⟨hend, (List.append_nil _).symm⟩
  | succ calls ih =>
    by_cases hempty : data.isEmpty
    · rw [Handle.pour, if_pos hempty] at h
      cases h
      rw [List.isEmpty_iff.1 hempty, List.append_nil]
      exact ⟨hend, rfl⟩
    · rw [Handle.pour, if_neg hempty] at h
      change (Handle.writeOnce data >>= _) handle = _ at h
      rw [bind_apply] at h
      cases hwrite : Handle.writeOnce data handle with
      | error error between =>
        rw [hwrite] at h
        cases h
      | ok taken between =>
        rw [hwrite] at h
        obtain ⟨hbetween, hbytes⟩ := Handle.retrying_write_ok hend hwrite
        dsimp only at h
        by_cases htaken : taken = 0
        · rw [if_pos htaken] at h
          cases h
        · rw [if_neg htaken] at h
          have hrest : (data.drop taken).length ≤ calls := by
            rw [List.length_drop]
            omega
          obtain ⟨hafter, hall⟩ := ih hrest hbetween h
          refine ⟨hafter, ?_⟩
          rw [hall, hbytes, List.append_assoc, List.take_append_drop]

/-- What cannot be encoded does not reach the stream. -/
theorem Frame.write_refused [Message α] {codec : Codec} {kind : FrameKind} {value : α}
    {error : Error} (h : Frame.encode codec kind value = .error error) :
    Frame.write codec kind value handle = .error error handle := by
  rw [Frame.write, h]
  rfl

theorem Frame.write_of_encode [Message α] {codec : Codec} {kind : FrameKind} {value : α}
    {frame : Bytes} (h : Frame.encode codec kind value = .ok frame) :
    Frame.write codec kind value = (Handle.writeAll frame).toFrameIO >>= fun _ =>
      pure frame.length := by
  rw [Frame.write, h]
  rfl

/-- A frame that was written to the end without failure stands at the end. -/
theorem Frame.write_ok [Message α] {codec : Codec} {kind : FrameKind} {value : α} {size : Nat}
    (hend : handle.AtEnd) (h : Frame.write codec kind value handle = .ok size after) :
    ∃ frame, Frame.encode codec kind value = .ok frame ∧ size = frame.length ∧ after.AtEnd ∧
      after.stream.bytes = handle.stream.bytes ++ frame := by
  cases hencode : Frame.encode codec kind value with
  | error error =>
    rw [Frame.write_refused hencode] at h
    cases h
  | ok frame =>
    rw [Frame.write_of_encode hencode] at h
    obtain ⟨_, between, hwrite, hdone⟩ := bind_ok h
    cases hdone
    obtain ⟨hafter, hbytes⟩ := Handle.pour_ok (Nat.le_refl _) hend (Transfer.toFrameIO_eq_ok hwrite)
    exact ⟨frame, rfl, rfl, hafter, hbytes⟩

end Writing
end FramedTree
