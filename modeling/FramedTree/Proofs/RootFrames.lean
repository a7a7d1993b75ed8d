import Mathlib.Data.List.Basic
import FramedTree.Proofs.Prefixes
import FramedTree.Proofs.SourceReads

/-! # What a root read accepts

The trailer says how long the payload is, and with the shortest spelling of that number it says
where the frame starts. What stands there is then read as a length and a payload. A spelling with
more bytes than needed moves the payload back, into the trailer; a length other than the trailer's,
which only a reader that compares the two refuses, makes the payload shorter or longer than the
trailer says.
-/

namespace FramedTree

private theorem Bytes.toNat_lt (bytes : Bytes) : toNat bytes < 256 ^ bytes.length := by
  induction bytes with
  | nil => exact Nat.one_pos
  | cons byte rest ih =>
    have hbyte := byte.toNat_lt
    rw [toNat, List.length_cons, Nat.pow_succ]
    omega

namespace Frame

variable {handle after : Handle}

def trailerOf (bytes : Bytes) : Nat := Bytes.toNat (bytes.drop (bytes.length - trailerSize))

private theorem trailerOf_lt (bytes : Bytes) : trailerOf bytes < 2 ^ 32 := by
  have hlength : (bytes.drop (bytes.length - trailerSize)).length ≤ 4 := by
    rw [List.length_drop, trailerSize]
    omega
  exact Nat.lt_of_lt_of_le (Bytes.toNat_lt _) (Nat.pow_le_pow_right (by decide) hlength)

private theorem seekRoot_inv (h : handle.stream.Calm) {trailer : Nat}
    (hread : seekRoot handle = .ok trailer after) :
    trailer = trailerOf handle.stream.bytes ∧ size trailer .root ≤ handle.stream.bytes.length ∧
    after.stream.Calm ∧
      after.ahead = handle.stream.bytes.drop (handle.stream.bytes.length - size trailer .root) := by
  obtain ⟨first, hseek₁, hcalm₁, hcontent₁, -⟩ := Handle.seek_ok h (.fromEnd 0)
  obtain ⟨second, hseek₂, hcalm₂, hcontent₂, hposition₂⟩ :=
    Handle.seek_ok hcalm₁ (.fromEnd trailerSize)
  have hlength : handle.stream.content.size = handle.stream.bytes.length := rfl
  have hahead₂ : second.ahead =
    handle.stream.bytes.drop (handle.stream.bytes.length - trailerSize) := by
    rw [Handle.ahead, Stream.bytes, hcontent₂, hposition₂, Handle.destination, hcontent₁]
    rfl
  rw [seekRoot_eq, bind_apply, hseek₁] at hread
  dsimp only at hread
  rw [Handle.destination, Nat.sub_zero, hlength] at hread
  split at hread
  · cases hread
  case isFalse hlong =>
    have henough : ¬ second.ahead.length < trailerSize := by
      rw [hahead₂, List.length_drop]
      rw [minimumRootSize] at hlong
      omega
    have hdata : (Handle.readExactly trailerSize).toFrameIO second =
        .ok (second.ahead.take trailerSize) (second.advance trailerSize) := by
      refine Transfer.toFrameIO_ok ?_
      rw [Handle.readExactly_eq hcalm₂, if_neg henough]
    have hall : second.ahead.take trailerSize =
        handle.stream.bytes.drop (handle.stream.bytes.length - trailerSize) := by
      rw [hahead₂]
      refine List.take_of_length_le ?_
      rw [List.length_drop]
      omega
    rw [bind_apply, hseek₂] at hread
    dsimp only at hread
    rw [bind_apply, hdata, hall] at hread
    dsimp only at hread
    split at hread
    · cases hread
    case isFalse hsize =>
      have hcalm₃ : (second.advance trailerSize).stream.Calm := hcalm₂
      obtain ⟨third, hseek₃, hcalm₄, hcontent₃, hposition₃⟩ := Handle.seek_ok hcalm₃ (.start
        (handle.stream.bytes.length - size (trailerOf handle.stream.bytes) .root))
      change ((Handle.seek (.start
        (handle.stream.bytes.length - size (trailerOf handle.stream.bytes) .root))).toFrameIO
        >>= _) _ = _ at hread
      rw [bind_apply, hseek₃] at hread
      cases hread
      refine ⟨rfl, Nat.le_of_not_lt hsize, hcalm₄, ?_⟩
      rw [Handle.ahead, Stream.bytes, hcontent₃, hposition₃]
      change second.stream.content.toList.drop _ = _
      rw [hcontent₂, hcontent₁]
      rfl

variable {α : Type} [Message α] {codec : Codec} {message : α}

/-- The bytes hold a length and its payload where their trailer says that the root frame starts. -/
structure RootAt (bytes before spelled payload rest : Bytes) : Prop where
  bytes_eq : bytes = before ++ spelled ++ payload ++ rest
  start_eq : before.length + size (trailerOf bytes) .root = bytes.length
  spells : Varint.Spells spelled payload.length

private theorem readRoot_inv (h : handle.stream.Calm)
    (hread : readRoot codec handle = .ok message after) :
    ∃ before spelled payload rest, RootAt handle.stream.bytes before spelled payload rest ∧
      Message.decode payload = .ok message ∧
      (codec.verifyTrailer = true → payload.length = trailerOf handle.stream.bytes) := by
  rw [readRoot_eq] at hread
  obtain ⟨trailer, first, hseek, hread⟩ := bind_ok hread
  obtain ⟨htrailer, hfits, hcalm, hahead⟩ := seekRoot_inv h hseek
  obtain ⟨length, second, hlength, hread⟩ := bind_ok hread
  obtain ⟨-, spelled, behind, hspells, hspelled, rfl⟩ := readLength_ok hcalm hlength
  split at hread
  · cases hread
  case isFalse hsame =>
    have hcalm' : (first.advance spelled.length).stream.Calm := hcalm
    obtain ⟨-, payload, rest, rfl, hdecode, hpayload, -⟩ := readPayload_inv hcalm' hread
    rw [Handle.ahead_advance, hspelled, List.drop_left] at hpayload
    rw [hahead, hpayload, htrailer] at hspelled
    rw [htrailer] at hfits
    refine ⟨handle.stream.bytes.take
      (handle.stream.bytes.length - size (trailerOf handle.stream.bytes) .root), spelled, payload,
      rest, ⟨?_, ?_, hspells⟩, hdecode, ?_⟩
    · rw [List.append_assoc, List.append_assoc, ← hspelled, List.take_append_drop]
    · rw [List.length_take]
      omega
    · intro hverify
      rw [hverify, Bool.true_and, bne_iff_ne, ne_eq, Decidable.not_not] at hsame
      exact hsame.trans htrailer

private theorem readRoot_agree
    (hread : readRoot { codec with verifyTrailer := true } handle = .ok message after) :
    readRoot { codec with verifyTrailer := false } handle = .ok message after := by
  rw [readRoot_eq] at hread ⊢
  obtain ⟨trailer, first, hseek, hread⟩ := bind_ok hread
  obtain ⟨length, second, hlength, hread⟩ := bind_ok hread
  rw [bind_apply, hseek]
  dsimp only
  rw [bind_apply, hlength]
  dsimp only
  rw [Bool.false_and, if_neg Bool.false_ne_true]
  split at hread
  · cases hread
  · exact hread

private theorem RootAt.length_eq {bytes before spelled payload rest : Bytes}
    (h : RootAt bytes before spelled payload rest) :
    spelled.length + payload.length + rest.length = size (trailerOf bytes) .root := by
  have hlength := congrArg List.length h.bytes_eq
  have hstart := h.start_eq
  simp only [List.length_append] at hlength
  omega

private theorem RootAt.whole_iff {bytes before spelled payload rest : Bytes}
    (h : RootAt bytes before spelled payload rest) :
    payload.length = trailerOf bytes ∧ rest.length = trailerSize ↔
      spelled = Varint.encode (trailerOf bytes) := by
  have hparts := h.length_eq
  have hspells := h.spells
  simp only [size] at hparts
  constructor
  · rintro ⟨hpayload, hrest⟩
    rw [hpayload] at hspells
    exact (Varint.spells_shortest_iff hspells).1 (by omega)
  · rintro rfl
    have hdecode := Varint.decode_encode_append (trailerOf bytes) []
      (Nat.lt_trans (trailerOf_lt bytes) (by decide))
    rw [List.append_nil, hspells] at hdecode
    have hpayload : payload.length = trailerOf bytes := (Prod.mk.inj (Option.some.inj hdecode)).1
    rw [Varint.length_encode] at hparts
    exact ⟨hpayload, by omega⟩

/-- A root read that compares the lengths has decoded as many bytes as the trailer says, right
behind a spelling of that number. They end where the trailer starts if the spelling is the shortest
one; each byte more in the spelling moves them one byte into the trailer. -/
theorem readRoot_verified (h : handle.stream.Calm) (hverify : codec.verifyTrailer = true)
    (hread : readRoot codec handle = .ok message after) :
    ∃ before spelled payload rest, handle.stream.bytes = before ++ spelled ++ payload ++ rest ∧
      payload.length = trailerOf handle.stream.bytes ∧ Varint.Spells spelled payload.length ∧
      Message.decode payload = .ok message ∧
      spelled.length + rest.length = Varint.size payload.length + trailerSize ∧
      (rest.length = trailerSize ↔ spelled = Varint.encode payload.length) := by
  obtain ⟨before, spelled, payload, rest, hroot, hdecode, hsame⟩ := readRoot_inv h hread
  have hpayload := hsame hverify
  have hparts := hroot.length_eq
  have hwhole := hroot.whole_iff
  rw [← hpayload] at hparts hwhole
  refine ⟨before, spelled, payload, rest, hroot.bytes_eq, hpayload, hroot.spells, hdecode, ?_, ?_⟩
  · simp only [size] at hparts
    omega
  · rw [← hwhole, eq_self, true_and]

/-- The bytes of an identity's root frame, behind a byte that does not belong to it. -/
theorem readRoot_verified_identity : ∃ before spelled payload rest,
    [0xff, 0x02, 0x10, 0x07, 0x02, 0x00, 0x00, 0x00] = before ++ spelled ++ payload ++ rest ∧
      payload.length = trailerOf [0xff, 0x02, 0x10, 0x07, 0x02, 0x00, 0x00, 0x00] ∧
      Varint.Spells spelled payload.length ∧
      Message.decode payload = .ok ({ birthYear := some 7 } : IdentityHeader) ∧
      spelled.length + rest.length = Varint.size payload.length + trailerSize ∧
      (rest.length = trailerSize ↔ spelled = Varint.encode payload.length) :=
  @readRoot_verified ⟨⟨#[0xff, 0x02, 0x10, 0x07, 0x02, 0x00, 0x00, 0x00], {}, []⟩, 0⟩ _ _ _ {} _
    (Stream.calm_mk _ _) rfl (eq_ok_of_verdict _ _ (by decide +kernel))

/-- A length of two bytes, where one would do: the last byte that is decoded is the first one of the
trailer, and the bytes that stand in front of the trailer do not decode. -/
theorem readRoot_verified_overlong :
    (∃ after, readRoot {} ⟨⟨#[0x82, 0x00, 0x10, 0x02, 0x00, 0x00, 0x00], {}, []⟩, 0⟩ =
      .ok ({ birthYear := some 2 } : IdentityHeader) after) ∧
    ¬ ∃ before spelled payload trailer, [0x82, 0x00, 0x10, 0x02, 0x00, 0x00, 0x00] =
        before ++ spelled ++ payload ++ trailer ∧ trailer.length = trailerSize ∧
        payload.length = Bytes.toNat trailer ∧ Varint.Spells spelled payload.length ∧
        Message.decode payload = .ok ({ birthYear := some 2 } : IdentityHeader) := by
  refine ⟨⟨_, eq_ok_of_verdict _ _ (by decide +kernel)⟩, ?_⟩
  rintro ⟨before, spelled, payload, trailer, hbytes, htrailer, hpayload, -, hdecode⟩
  have hsplit : [0x82, 0x00, 0x10] ++ [0x02, 0x00, 0x00, 0x00] =
    before ++ spelled ++ payload ++ trailer := hbytes
  obtain ⟨hfront, rfl⟩ := List.append_inj' hsplit htrailer.symm
  have hsplit' : [0x82] ++ [0x00, 0x10] = before ++ spelled ++ payload := hfront
  obtain ⟨-, rfl⟩ := List.append_inj' hsplit' hpayload.symm
  cases hdecode

/-- A root read that does not compare the lengths has decoded what stands behind the length that is
spelled out where the trailer says that the frame starts: the length decides, not the trailer. Where
it is spelled as writers spell the trailer's, these are the bytes in front of the trailer. A read
that does compare them gives nothing else. -/
theorem readRoot_unverified (h : handle.stream.Calm) (hverify : codec.verifyTrailer = false)
    (hread : readRoot codec handle = .ok message after) :
    (∃ before spelled payload rest, handle.stream.bytes = before ++ spelled ++ payload ++ rest ∧
      before.length + size (trailerOf handle.stream.bytes) .root = handle.stream.bytes.length ∧
      Varint.Spells spelled payload.length ∧ Message.decode payload = .ok message ∧
      (payload.length = trailerOf handle.stream.bytes ∧ rest.length = trailerSize ↔
        spelled = Varint.encode (trailerOf handle.stream.bytes))) ∧
    ∀ found last, readRoot { codec with verifyTrailer := true } handle = .ok found last →
      found = message ∧ last = after := by
  refine ⟨?_, ?_⟩
  · obtain ⟨before, spelled, payload, rest, hroot, hdecode, -⟩ := readRoot_inv h hread
    exact ⟨before, spelled, payload, rest, hroot.bytes_eq, hroot.start_eq, hroot.spells, hdecode,
      hroot.whole_iff⟩
  · intro found last hfound
    have hagree := readRoot_agree hfound
    rw [show ({ codec with verifyTrailer := false } : Codec) =
      codec by rw [← hverify], hread] at hagree
    cases hagree
    exact ⟨rfl, rfl⟩

/-- A length of two bytes, where one would do, is taken by both kinds of readers. -/
theorem readRoot_unverified_identity : ∃ after, (∃ before spelled payload rest,
    [0x82, 0x00, 0x10, 0x02, 0x00, 0x00, 0x00] = before ++ spelled ++ payload ++ rest ∧
      before.length + size (trailerOf [0x82, 0x00, 0x10, 0x02, 0x00, 0x00, 0x00]) .root = 7 ∧
      Varint.Spells spelled payload.length ∧
      Message.decode payload = .ok ({ birthYear := some 2 } : IdentityHeader) ∧
      (payload.length = trailerOf [0x82, 0x00, 0x10, 0x02, 0x00, 0x00, 0x00] ∧
        rest.length = trailerSize ↔
        spelled = Varint.encode (trailerOf [0x82, 0x00, 0x10, 0x02, 0x00, 0x00, 0x00]))) ∧
    ∀ found last, readRoot {} ⟨⟨#[0x82, 0x00, 0x10, 0x02, 0x00, 0x00, 0x00], {}, []⟩, 0⟩ =
      .ok found last →
      found = ({ birthYear := some 2 } : IdentityHeader) ∧ last = after :=
  ⟨_, @readRoot_unverified ⟨⟨#[0x82, 0x00, 0x10, 0x02, 0x00, 0x00, 0x00], {}, []⟩, 0⟩ _ _ _
    { verifyTrailer := false } _
    (Stream.calm_mk _ _) rfl (eq_ok_of_verdict _ _ (by decide +kernel))⟩

/-- What is decoded is not what stands in front of the trailer if the length in front of it is
another one. -/
theorem readRoot_unverified_elsewhere :
    (∃ after, readRoot { verifyTrailer := false }
      ⟨⟨#[0x00, 0x10, 0x07, 0x02, 0x00, 0x00, 0x00], {}, []⟩, 0⟩ =
      .ok ({} : IdentityHeader) after) ∧
    trailerOf [0x00, 0x10, 0x07, 0x02, 0x00, 0x00, 0x00] = [0x10, 0x07].length ∧
    Message.decode [0x10, 0x07] = .ok ({ birthYear := some 7 } : IdentityHeader) :=
  ⟨⟨_, eq_ok_of_verdict _ _ (by decide +kernel)⟩, by decide +kernel, by decide +kernel⟩

end Frame
end FramedTree
