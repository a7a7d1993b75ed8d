import Mathlib.Data.List.Basic
import FramedTree.Header
import FramedTree.Proofs.SourceReads

/-! # Frames one behind the other

A nested read takes the bytes of one frame, whatever they are, and what it gives is settled by them.
A payload that does not decode, and one whose fields claim more bytes than it has, are refused
without a look at what follows, so that a reader that goes on finds the next frame where it starts.
-/

namespace FramedTree

variable {α : Type} {codec : Codec} {handle : Handle}

def HeaderKind.decode (kind : HeaderKind) (payload : Bytes) : Except DecodeError Header :=
  kind.run (Message.decode payload)

namespace Frame

/-- Any bytes as a payload, and the kind of message as which they are read. -/
structure Packet where
  kind : HeaderKind
  payload : Bytes
  deriving DecidableEq

def Packet.bytes (packet : Packet) : Bytes := Varint.encode packet.payload.length ++ packet.payload

def readKind (codec : Codec) (kind : HeaderKind) : FrameIO Header := kind.run (readNested codec)

/-- Reads one nested frame after another, each where the read before has left the handle, whatever
came of it. -/
def readEach (codec : Codec) : List HeaderKind → Handle → List (EStateM.Result Error Handle Header)
  | [], _ => []
  | kind :: kinds, handle =>
    let result := readKind codec kind handle
    result :: readEach codec kinds (stateAfter result)

private theorem readKind_packet (h : handle.stream.Calm) {packet : Packet} {rest : Bytes}
    (hsize : packet.payload.length ≤ codec.maxFrameLen.toNat)
    (hahead : handle.ahead = packet.bytes ++ rest) :
    readKind codec packet.kind handle =
      decoded (packet.kind.decode packet.payload) (handle.advance packet.bytes.length) := by
  have hread {β : Type} [Message β] (wrap : β → Header) : (wrap <$> readNested codec) handle =
      decoded (wrap <$> Message.decode packet.payload) (handle.advance packet.bytes.length) := by
    rw [map_apply, readNested_decoded h hsize hahead, Packet.bytes]
    cases (Message.decode packet.payload : Except _ β) <;> rfl
  obtain ⟨kind, payload⟩ := packet
  cases kind <;> exact hread _

/-- Frames that stand one behind the other are read one after the other. Every read gives what
decoding its payload by itself gives, and leaves the handle at the start of the next frame. -/
theorem readEach_in_step {packets : List Packet} {before rest : Bytes} (h : handle.stream.Calm)
    (hlimit : ∀ packet ∈ packets, packet.payload.length ≤ codec.maxFrameLen.toNat)
    (hbytes : handle.stream.bytes = before ++ packets.flatMap Packet.bytes ++ rest)
    (hposition : handle.position = before.length) :
    readEach codec (packets.map Packet.kind) handle = packets.mapIdx fun k packet =>
      decoded (packet.kind.decode packet.payload)
        { handle with position := (before ++ (packets.take (k + 1)).flatMap Packet.bytes).length } := by
  -- What has been read counts among the bytes before.
  induction packets generalizing handle before with
  | nil => rfl
  | cons packet packets ih =>
    obtain ⟨hsize, hlimit⟩ := List.forall_mem_cons.1 hlimit
    rw [List.flatMap_cons, ← List.append_assoc before] at hbytes
    have hahead : handle.ahead = packet.bytes ++ (packets.flatMap Packet.bytes ++ rest) := by
      rw [Handle.ahead, hbytes, hposition, List.append_assoc, List.append_assoc, List.drop_left]
    have hnext : handle.advance packet.bytes.length =
      { handle with position := (before ++ packet.bytes).length } := by
      rw [Handle.advance, hposition, List.length_append]
    have hcalm : (handle.advance packet.bytes.length).stream.Calm := h
    rw [List.map_cons, readEach, readKind_packet h hsize hahead, stateAfter_decoded,
      ih hcalm hlimit hbytes (congrArg Handle.position hnext), List.mapIdx_cons, hnext]
    simp only [List.take_succ_cons, List.flatMap_cons, List.take_zero, List.flatMap_nil,
      List.append_nil, List.append_assoc]

/-- An identity without a year, a name that would reach into the next frame, an entry of no bytes
and a tag of zero. -/
def mixedPackets : List Packet :=
  [⟨.identity, [10, 1, 65]⟩, ⟨.identity, [10, 3, 66]⟩, ⟨.entry, []⟩, ⟨.document, [0]⟩]

/-- Two of the four payloads do not decode, and every read ends at its frame's end. -/
theorem readEach_in_step_mixed :
    let results := readEach {} (mixedPackets.map Packet.kind)
      ⟨⟨#[9, 3, 10, 1, 65, 3, 10, 3, 66, 0, 1, 0, 255], {}, []⟩, 1⟩
    results.map verdict =
      [.ok (.identity { firstName := some "A" }),
        .error (.decode ⟨.underflow, [("IdentityHeader", "first_name")]⟩), .ok (.entry {}),
        .error (.decode ⟨.invalidTag, []⟩)] ∧
    results.map (fun result => (stateAfter result).position) = [5, 9, 10, 12] := by
  have hread := @readEach_in_step {}
    ⟨⟨#[9, 3, 10, 1, 65, 3, 10, 3, 66, 0, 1, 0, 255], {}, []⟩, 1⟩ mixedPackets [9] [255]
    (Stream.calm_mk _ _) (by decide) (by decide +kernel) rfl
  rw [hread]
  constructor <;> decide +kernel

end Frame
end FramedTree
