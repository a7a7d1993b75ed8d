import FramedTree.Proofs.Frames

/-! # Lengths in front of payloads

A length is read up to the first byte without the high bit. Whoever wrote it may have spelled the
number out with more bytes than it needs: the shortest spelling is the one that writers use, and
readers take any.
-/

namespace FramedTree

variable {n : Nat} {spelled rest : Bytes}

namespace Varint

/-- The bytes are a varint of the number, which may have more bytes than it needs. -/
def Spells (spelled : Bytes) (n : Nat) : Prop := decode spelled = some (n, spelled.length)

def Terminated : Bytes → Prop
  | [] => False
  | byte :: rest => if byte.toNat < 128 then rest = [] else Terminated rest

private theorem size_step (h : 128 ≤ n) : size n = size (n / 128) + 1 := by
  rw [← length_encode n, encode, if_neg (by omega), List.length_cons, length_encode]

private theorem decodeFrom_terminated {place count : Nat} (h : Terminated spelled)
    (hdecode : decodeFrom place spelled = some (n, count)) : count = spelled.length := by
  induction spelled generalizing place n count with
  | nil => cases hdecode
  | cons byte rest ih =>
    rw [Terminated] at h
    rw [decodeFrom] at hdecode
    by_cases hbyte : byte.toNat < 128
    · rw [if_pos hbyte] at h hdecode
      subst h
      split at hdecode
      · cases hdecode
      · cases hdecode
        rfl
    · rw [if_neg hbyte] at h hdecode
      split at hdecode
      · cases hdecode
      · obtain ⟨⟨high, found⟩, hrest, heq⟩ := Option.map_eq_some_iff.1 hdecode
        cases heq
        rw [List.length_cons, ih h hrest]

private theorem spells_of_terminated {count : Nat} (h : Terminated spelled)
    (hdecode : decode spelled = some (n, count)) :
    Spells spelled n := by
  rw [Spells, hdecode, decodeFrom_terminated h hdecode]

private theorem decodeFrom_cons {place : Nat} {byte : UInt8}
    (h : decodeFrom place (byte :: rest) = some (n, (byte :: rest).length)) :
    (byte.toNat < 128 ∧ rest = [] ∧ n = byte.toNat) ∨
      (128 ≤ byte.toNat ∧ ∃ high, decodeFrom (place + 1) rest = some (high, rest.length) ∧
        n = byte.toNat - 128 + 128 * high) := by
  rw [decodeFrom] at h
  split at h
  case isTrue hbyte =>
    split at h
    · cases h
    · obtain ⟨rfl, hlength⟩ := Prod.mk.inj (Option.some.inj h)
      exact .inl ⟨hbyte, List.length_eq_zero_iff.1 (Nat.succ.inj hlength).symm, rfl⟩
  case isFalse hbyte =>
    split at h
    · cases h
    · obtain ⟨⟨high, count⟩, hrest, heq⟩ := Option.map_eq_some_iff.1 h
      obtain ⟨rfl, hlength⟩ := Prod.mk.inj heq
      cases hlength
      exact .inr ⟨Nat.le_of_not_lt hbyte, high, hrest, rfl⟩

private theorem size_le_of_decodeFrom {place : Nat}
    (h : decodeFrom place spelled = some (n, spelled.length)) :
    size n ≤ spelled.length := by
  induction spelled generalizing place n with
  | nil => cases h
  | cons byte rest ih =>
    rcases decodeFrom_cons h with ⟨hbyte, rfl, rfl⟩ | ⟨hbyte, high, hrest, rfl⟩
    · rw [← length_encode, encode, if_pos hbyte]
      exact Nat.le_refl _
    · have hhigh := ih hrest
      by_cases hsmall : byte.toNat - 128 + 128 * high < 128
      · rw [← length_encode, encode, if_pos hsmall]
        exact Nat.succ_le_succ (Nat.zero_le _)
      · have := byte.toNat_lt
        rw [size_step (Nat.le_of_not_lt hsmall),
          show (byte.toNat - 128 + 128 * high) / 128 = high by omega]
        exact Nat.succ_le_succ hhigh

private theorem eq_encode_of_decodeFrom {place : Nat}
    (h : decodeFrom place spelled = some (n, spelled.length)) (hlength : spelled.length = size n) :
    spelled = encode n := by
  induction spelled generalizing place n with
  | nil => cases h
  | cons byte rest ih =>
    rcases decodeFrom_cons h with ⟨hbyte, rfl, rfl⟩ | ⟨hbyte, high, hrest, rfl⟩
    · rw [encode, if_pos hbyte, Nat.toUInt8_eq, UInt8.ofNat_toNat]
    · have hbound := byte.toNat_lt
      have hhigh := size_le_of_decodeFrom hrest
      by_cases hsmall : byte.toNat - 128 + 128 * high < 128
      · -- One byte would do, but there are at least two.
        rw [← length_encode (byte.toNat - 128 + 128 * high), encode, if_pos hsmall,
          List.length_cons, List.length_singleton] at hlength
        rw [size] at hhigh
        omega
      · have hdiv : (byte.toNat - 128 + 128 * high) / 128 = high := by omega
        have hmod : (byte.toNat - 128 + 128 * high) % 128 + 128 = byte.toNat := by omega
        rw [size_step (Nat.le_of_not_lt hsmall), hdiv] at hlength
        rw [encode, if_neg hsmall, hdiv, hmod, ← ih hrest (Nat.succ.inj hlength), Nat.toUInt8_eq,
          UInt8.ofNat_toNat]

/-- The shortest spelling is the one that writers use. -/
theorem spells_shortest_iff (h : Spells spelled n) :
    spelled.length = size n ↔ spelled = encode n := by
  refine ⟨eq_encode_of_decodeFrom h, ?_⟩
  rintro rfl
  exact length_encode n

end Varint

namespace Frame

variable {handle after : Handle}

private theorem readLengthByte_ok (h : handle.stream.Calm) {byte : UInt8}
    (hread : readLengthByte handle = .ok byte after) :
    ∃ rest, handle.ahead = byte :: rest ∧ after = handle.advance 1 := by
  cases hahead : handle.ahead with
  | nil =>
    rw [readLengthByte, Handle.readExactly_eq h, hahead, if_pos (by decide)] at hread
    cases hread
  | cons first rest =>
    rw [readLengthByte_eq h hahead] at hread
    cases hread
    exact ⟨rest, rfl, rfl⟩

private theorem readLengthBytes_ok (h : handle.stream.Calm) {left : Nat}
    (hread : readLengthBytes left handle = .ok spelled after) :
    Varint.Terminated spelled ∧ ∃ rest,
      handle.ahead = spelled ++ rest ∧ after = handle.advance spelled.length := by
  induction left generalizing handle spelled with
  | zero => cases hread
  | succ left ih =>
    obtain ⟨byte, between, hbyte, hread⟩ := bind_ok hread
    obtain ⟨rest, hahead, rfl⟩ := readLengthByte_ok h hbyte
    by_cases hlast : byte.toNat < 128
    · rw [if_pos hlast] at hread
      cases hread
      refine ⟨?_, rest, hahead, rfl⟩
      rw [Varint.Terminated, if_pos hlast]
    · rw [if_neg hlast] at hread
      obtain ⟨others, last, hothers, hpure⟩ := bind_ok hread
      cases hpure
      have hcalm : (handle.advance 1).stream.Calm := h
      obtain ⟨hterminated, rest', hahead', rfl⟩ := ih hcalm hothers
      rw [Handle.ahead_advance, hahead, List.drop_one, List.tail_cons] at hahead'
      refine ⟨?_, rest', ?_, ?_⟩
      · rw [Varint.Terminated, if_neg hlast]
        exact hterminated
      · rw [hahead, hahead', List.cons_append]
      · rw [Handle.advance_advance, List.length_cons, Nat.add_comm]

/-- A length that was read is spelled out ahead, and it fits 32 bits. -/
theorem readLength_ok (h : handle.stream.Calm) (hread : readLength handle = .ok n after) :
    n < 2 ^ 32 ∧ ∃ spelled rest, Varint.Spells spelled n ∧ handle.ahead = spelled ++ rest ∧
      after = handle.advance spelled.length := by
  obtain ⟨spelled, between, hbytes, hread⟩ := bind_ok hread
  obtain ⟨hterminated, rest, hahead, rfl⟩ := readLengthBytes_ok h hbytes
  cases hdecode : Varint.decode spelled with
  | none =>
    rw [hdecode] at hread
    cases hread
  | some found =>
    obtain ⟨length, count⟩ := found
    rw [hdecode] at hread
    dsimp only at hread
    split at hread
    case isTrue hfits =>
      cases hread
      exact ⟨hfits, spelled, rest, Varint.spells_of_terminated hterminated hdecode, hahead, rfl⟩
    case isFalse => cases hread

/-- A payload that was read lies ahead, is within the limit, and holds the message. -/
theorem readPayload_inv {α : Type} [Message α] (h : handle.stream.Calm) {codec : Codec}
    {length : Nat} {message : α} (hread : readPayload codec length handle = .ok message after) :
    length ≤ codec.maxFrameLen.toNat ∧ ∃ payload rest, payload.length = length ∧
      Message.decode payload = .ok message ∧ handle.ahead = payload ++ rest ∧
      after = handle.advance length := by
  rw [readPayload_eq] at hread
  split at hread
  · cases hread
  case isFalse hsize =>
    have htake : (Handle.readUpTo length).toFrameIO handle =
        .ok (handle.ahead.take length) (handle.advance (handle.ahead.take length).length) :=
      Transfer.toFrameIO_ok (Handle.readUpTo_eq h length)
    rw [bind_apply, htake] at hread
    dsimp only at hread
    split at hread
    · cases hread
    case isFalse hlong =>
      have hlength : (handle.ahead.take length).length = length := by
        have hle := List.length_take_le length handle.ahead
        omega
      cases hdecode : (Message.decode (handle.ahead.take length) : Except _ α) with
      | error error =>
        rw [hdecode] at hread
        cases hread
      | ok found =>
        rw [hdecode] at hread
        cases hread
        refine ⟨Nat.le_of_not_lt hsize, handle.ahead.take length, handle.ahead.drop length, hlength,
          hdecode, (List.take_append_drop ..).symm, ?_⟩
        rw [hlength]

end Frame
end FramedTree
