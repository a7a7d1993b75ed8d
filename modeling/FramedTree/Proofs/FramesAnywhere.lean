import FramedTree.Header
import FramedTree.Proofs.Frames

/-! # Frames at any place

A frame can stand behind any bytes, even behind bytes that look like frames or trailers. A nested
frame is found by its position, and what follows it does not matter; a root frame is found from the
end of the stream, wherever the handle stood before. The limit of the codec is all that keeps a
message from getting a frame.
-/

namespace FramedTree

variable {α : Type} [Message α]

namespace Frame

/-- What a codec makes of a message, and what readers with the same or a wider limit make of
that. -/
structure Faithful (codec : Codec) (message : α) : Prop where
  /-- A message over the limit is refused, and no byte of it reaches a stream. -/
  refused : codec.maxFrameLen.toNat < Message.encodedLen message → ∀ kind,
    encode codec kind message =
        .error (.malformed (.frameTooLarge (Message.encodedLen message) codec.maxFrameLen.toNat)) ∧
      ∀ handle, write codec kind message handle =
        .error (.malformed (.frameTooLarge (Message.encodedLen message) codec.maxFrameLen.toNat))
          handle
  /-- Any other message has a frame of the size that its length tells. -/
  sized : Message.encodedLen message ≤ codec.maxFrameLen.toNat → ∀ kind, ∃ frame,
    encode codec kind message = .ok frame ∧ frame.length = size (Message.encodedLen message) kind
  /-- The last bytes of a root frame are the length of its payload. -/
  trailed : ∀ frame, encode codec .root message = .ok frame →
    Bytes.toNat (frame.drop (frame.length - trailerSize)) = Message.encodedLen message
  /-- A nested frame is read from its position, and the handle then stands behind it. -/
  nested : ∀ frame, encode codec .nested message = .ok frame → ∀ reader : Codec,
    codec.maxFrameLen ≤ reader.maxFrameLen → ∀ before rest (handle : Handle), handle.stream.Calm →
    handle.stream.bytes = before ++ frame ++ rest →
    ∃ after, readAt reader before.length handle = .ok message after ∧
      after.position = (before ++ frame).length
  /-- A root frame at the end is read from any position. -/
  root : ∀ frame, encode codec .root message = .ok frame → ∀ reader : Codec,
    codec.maxFrameLen ≤ reader.maxFrameLen → ∀ before (handle : Handle), handle.stream.Calm →
    handle.stream.bytes = before ++ frame → ∃ after, readRoot reader handle = .ok message after

section Encoding

variable {codec : Codec} {kind : FrameKind} {message : α} {frame : Bytes}

private theorem encode_refused (h : codec.maxFrameLen.toNat < Message.encodedLen message)
    (kind : FrameKind) :
    encode codec kind message =
      .error (.malformed
        (.frameTooLarge (Message.encodedLen message) codec.maxFrameLen.toNat)) := by
  rw [encode, wrap, if_pos h]

theorem encodedLen_le (h : encode codec kind message = .ok frame) :
    Message.encodedLen message ≤ codec.maxFrameLen.toNat := by
  rw [encode, wrap] at h
  split at h
  · cases h
  case isFalse hsize => exact Nat.le_of_not_lt hsize

/-- All codecs whose limit allows it make the same frame of a message. -/
theorem encode_within {other : Codec} (h : encode codec kind message = .ok frame)
    (hsize : Message.encodedLen message ≤ other.maxFrameLen.toNat) :
    encode other kind message = .ok frame := by
  rw [encode, wrap, if_neg (Nat.not_lt_of_le (encodedLen_le h))] at h
  rw [encode, wrap, if_neg (Nat.not_lt_of_le hsize), h]

private theorem encode_wider {reader : Codec} (h : encode codec kind message = .ok frame)
    (hlimit : codec.maxFrameLen ≤ reader.maxFrameLen) : encode reader kind message = .ok frame :=
  encode_within h (Nat.le_trans (encodedLen_le h) (UInt32.le_iff_toNat_le.1 hlimit))

variable [LawfulMessage α]

theorem length_encode_of_ok (h : encode codec kind message = .ok frame) :
    frame.length = size (Message.encodedLen message) kind := by
  rw [length_encode h, LawfulMessage.length_encode]

private theorem trailer_of_encode (h : encode codec .root message = .ok frame) :
    Bytes.toNat (frame.drop (frame.length - trailerSize)) = Message.encodedLen message := by
  obtain ⟨hsize, rfl⟩ := encode_ok h
  have hshort : (Message.encode message).length < 2 ^ 32 :=
    Nat.lt_of_le_of_lt hsize codec.maxFrameLen.toNat_lt
  have htrailer : (trailer .root (Message.encode message).length).length = trailerSize := rfl
  rw [List.length_append, htrailer, Nat.add_sub_cancel, List.drop_left, trailer,
    Bytes.toNat_ofWord32, ← LawfulMessage.length_encode]
  exact Nat.mod_eq_of_lt hshort

end Encoding

variable [LawfulMessage α] {codec : Codec} {message : α} {handle : Handle}

private theorem readNested_frame (h : handle.stream.Calm) {frame rest : Bytes}
    (hencode : encode codec .nested message = .ok frame) (hahead : handle.ahead = frame ++ rest) :
    readNested codec handle = .ok message (handle.advance frame.length) := by
  obtain ⟨hsize, rfl⟩ := encode_ok hencode
  have hshort : (Message.encode message).length < 2 ^ 32 :=
    Nat.lt_of_le_of_lt hsize codec.maxFrameLen.toNat_lt
  rw [trailer, List.append_nil] at hahead ⊢
  rw [readNested_decoded h hsize hahead,
    LawfulMessage.decode_encode message (Nat.lt_trans hshort (by decide))]
  rfl

theorem readAt_frame (h : handle.stream.Calm) {before frame rest : Bytes}
    (hencode : encode codec .nested message = .ok frame)
    (hbytes : handle.stream.bytes = before ++ frame ++ rest) :
    ∃ after, readAt codec before.length handle = .ok message after ∧
      after.position = (before ++ frame).length := by
  obtain ⟨found, hseek, hcalm, hcontent, hposition⟩ := Handle.seek_ok h (.start before.length)
  have hahead : found.ahead = frame ++ rest := by
    rw [Handle.ahead, Stream.bytes, hcontent, hposition]
    change handle.stream.bytes.drop before.length = _
    rw [hbytes, List.append_assoc, List.drop_left]
  refine ⟨found.advance frame.length, ?_, ?_⟩
  · rw [readAt, discard_bind, bind_apply, hseek]
    exact readNested_frame hcalm hencode hahead
  · rw [List.length_append]
    exact congrArg (· + frame.length) hposition

theorem faithful (codec : Codec) (message : α) : Faithful codec message where
  refused h kind := ⟨encode_refused h kind, fun _ => write_refused (encode_refused h kind)⟩
  sized h kind := by
    have hencode : ∃ frame, encode codec kind message = .ok frame := by
      rw [encode, wrap, if_neg (Nat.not_lt_of_le h)]
      exact ⟨_, rfl⟩
    obtain ⟨frame, hencode⟩ := hencode
    exact ⟨frame, hencode, length_encode_of_ok hencode⟩
  trailed _ h := trailer_of_encode h
  nested _ h _ hlimit _ _ _ hcalm hbytes := readAt_frame hcalm (encode_wider h hlimit) hbytes
  root _ h _ hlimit _ _ hcalm hbytes := readRoot_ok hcalm (encode_wider h hlimit) hbytes

/-- Whatever its kind, a header gets a frame unless it is over the limit; the frame has the size and
the trailer that the header's length tells, and it is read back from any place. -/
theorem header_frames_faithful (codec : Codec) (header : Header) :
    header.use fun message => Faithful codec message := by
  cases header <;> exact faithful codec _

end Frame
end FramedTree
