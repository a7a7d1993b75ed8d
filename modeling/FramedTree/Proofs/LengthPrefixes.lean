import Mathlib.Tactic.ByContra
import FramedTree.Proofs.Prefixes

/-! # Which bytes are a length

A length ends with the first byte without the high bit, and it has ten bytes at most. The low bits
of its bytes are its digits. Bytes that end before such a byte comes are cut off; everything else
that is no length of 32 bits is an overflow, be it too long or too large.
-/

namespace FramedTree

variable {bytes front rest : Bytes} {last : UInt8}

namespace Varint

/-- The number whose digits base 128 are the low bits of the bytes, the lowest digit first. -/
def value : Bytes → Nat
  | [] => 0
  | byte :: rest => byte.toNat % 128 + 128 * value rest

def Continues (bytes : Bytes) : Prop := ∀ byte ∈ bytes, 128 ≤ byte.toNat

instance : DecidablePred Continues := fun bytes => List.decidableBAll (128 ≤ UInt8.toNat ·) bytes

/-- The bytes begin with a length: `n`, in `count` bytes. -/
structure LeadsWith (bytes : Bytes) (n count : Nat) : Prop where
  digits : ∃ front last rest, bytes = front ++ last :: rest ∧ Continues front ∧ last.toNat < 128 ∧
    count = front.length + 1 ∧ n = value (front ++ [last])
  short : count ≤ maxSize
  small : n < 2 ^ 32

structure CutOff (bytes : Bytes) : Prop where
  short : bytes.length < maxSize
  continues : Continues bytes

private theorem Continues.head {byte : UInt8} (h : Continues (byte :: rest)) : ¬ byte.toNat < 128 :=
  Nat.not_lt_of_le (h byte List.mem_cons_self)

private theorem Continues.tail {byte : UInt8} (h : Continues (byte :: rest)) : Continues rest :=
  fun other hother => h other (List.mem_cons_of_mem byte hother)

private theorem Continues.cons {byte : UInt8} (hbyte : ¬ byte.toNat < 128) (h : Continues rest) :
    Continues (byte :: rest) :=
  List.forall_mem_cons.2 ⟨Nat.le_of_not_lt hbyte, h⟩

private theorem continues_cases (count : Nat) (bytes : Bytes) :
    (∃ front last rest, bytes = front ++ last :: rest ∧ Continues front ∧ last.toNat < 128 ∧
      front.length < count) ∨
      (bytes.length < count ∧ Continues bytes) ∨
      (count ≤ bytes.length ∧ Continues (bytes.take count)) := by
  induction count generalizing bytes with
  | zero => exact .inr (.inr ⟨Nat.zero_le _, nofun⟩)
  | succ count ih =>
    cases bytes with
    | nil => exact .inr (.inl ⟨Nat.succ_pos count, nofun⟩)
    | cons byte rest =>
      by_cases hbyte : byte.toNat < 128
      · exact .inl ⟨[], byte, rest, rfl, nofun, hbyte, Nat.succ_pos count⟩
      · rcases ih rest with ⟨front, last, rest', rfl, hfront, hlast, hlength⟩ | ⟨hlength, hrest⟩
          | ⟨hlength, hrest⟩
        · exact .inl ⟨byte :: front, last, rest', rfl, hfront.cons hbyte, hlast,
            Nat.succ_lt_succ hlength⟩
        · exact .inr (.inl ⟨Nat.succ_lt_succ hlength, hrest.cons hbyte⟩)
        · exact .inr (.inr ⟨Nat.succ_le_succ hlength, hrest.cons hbyte⟩)

private theorem le_value (front : Bytes) (hlast : last.toNat < 128) :
    128 ^ front.length * last.toNat ≤ value (front ++ [last]) := by
  induction front with
  | nil => simp [value, Nat.mod_eq_of_lt hlast]
  | cons byte front ih =>
    calc 128 ^ (front.length + 1) * last.toNat
        = 128 * (128 ^ front.length * last.toNat) := by rw [Nat.pow_succ]; ac_rfl
      _ ≤ 128 * value (front ++ [last]) := Nat.mul_le_mul_left 128 ih
      _ ≤ value (byte :: (front ++ [last])) := Nat.le_add_left _ _

private theorem decodeFrom_digits {place : Nat} (hfront : Continues front)
    (hlast : last.toNat < 128) (hplace : place + front.length < maxSize) :
    decodeFrom place (front ++ [last]) =
      if place + front.length + 1 = maxSize ∧ 1 < last.toNat then none
      else some (value (front ++ [last]), front.length + 1) := by
  induction front generalizing place with
  | nil => simp [decodeFrom, value, hlast, Nat.mod_eq_of_lt hlast]
  | cons byte front ih =>
    have hbound := byte.toNat_lt
    have hbyte := hfront.head
    have hmod : byte.toNat - 128 = byte.toNat % 128 := by omega
    rw [List.length_cons] at hplace ⊢
    have hnext : place + 1 ≠ maxSize := by omega
    rw [List.cons_append, decodeFrom, if_neg hbyte, if_neg hnext, ih hfront.tail (by omega),
      value, hmod, show place + (front.length + 1) = place + 1 + front.length by omega]
    split <;> rfl

private theorem decode_digits (hfront : Continues front) (hlast : last.toNat < 128)
    (hlength : front.length < maxSize) :
    (decode (front ++ [last])).filter (·.1 < 2 ^ 32) =
      if value (front ++ [last]) < 2 ^ 32 then some (value (front ++ [last]), front.length + 1)
        else none := by
  rw [decode, decodeFrom_digits hfront hlast (by omega)]
  by_cases hlarge : 0 + front.length + 1 = maxSize ∧ 1 < last.toNat
  · have hnine : front.length = 9 := by
      rw [maxSize] at hlarge
      omega
    have hvalue := le_value front hlast
    rw [hnine] at hvalue
    rw [if_pos hlarge, if_neg (by omega)]
    rfl
  · rw [if_neg hlarge]
    exact Option.filter_some.trans (by simp only [decide_eq_true_eq])

end Varint

namespace Frame

open Varint

variable {handle : Handle} {left : Nat}

private theorem readLengthBytes_ended (h : handle.stream.Calm)
    (hahead : handle.ahead = front ++ last :: rest) (hfront : Continues front)
    (hlast : last.toNat < 128) (hleft : front.length < left) :
    readLengthBytes left handle = .ok (front ++ [last]) (handle.advance (front.length + 1)) := by
  induction front generalizing handle left with
  | nil =>
    obtain ⟨left, rfl⟩ := Nat.exists_eq_succ_of_ne_zero (Nat.ne_of_gt hleft)
    rw [readLengthBytes, bind_apply, readLengthByte_eq h hahead]
    dsimp only
    rw [if_pos hlast]
    rfl
  | cons byte front ih =>
    obtain ⟨left, rfl⟩ := Nat.exists_eq_succ_of_ne_zero (Nat.ne_of_gt (Nat.zero_lt_of_lt hleft))
    have hrest : (handle.advance 1).ahead = front ++ last :: rest := by
      rw [Handle.ahead_advance, hahead]
      rfl
    have hcalm : (handle.advance 1).stream.Calm := h
    rw [readLengthBytes, bind_apply, readLengthByte_eq h hahead]
    dsimp only
    rw [if_neg hfront.head, bind_apply, ih hcalm hrest hfront.tail (Nat.lt_of_succ_lt_succ hleft),
      Handle.advance_advance, Nat.add_comm 1]
    rfl

private theorem readLengthBytes_cutOff (h : handle.stream.Calm) (hahead : Continues handle.ahead)
    (hleft : handle.ahead.length < left) :
    ∃ after, readLengthBytes left handle = .error (.malformed .truncatedVarint) after := by
  induction left generalizing handle with
  | zero => cases hleft
  | succ left ih =>
    cases hbytes : handle.ahead with
    | nil =>
      have hbyte : readLengthByte handle =
        .error (.malformed .truncatedVarint) (handle.advance 0) := by
        rw [readLengthByte, Handle.readExactly_eq h, hbytes]
        rfl
      exact ⟨handle.advance 0, by rw [readLengthBytes, bind_apply, hbyte]⟩
    | cons byte rest =>
      rw [hbytes] at hahead hleft
      have hrest : (handle.advance 1).ahead = rest := by
        rw [Handle.ahead_advance, hbytes]
        rfl
      have hcalm : (handle.advance 1).stream.Calm := h
      obtain ⟨after, hrun⟩ :=
        ih hcalm (hrest ▸ hahead.tail) (by rw [hrest]; exact Nat.lt_of_succ_lt_succ hleft)
      refine ⟨after, ?_⟩
      rw [readLengthBytes, bind_apply, readLengthByte_eq h hbytes]
      dsimp only
      rw [if_neg hahead.head, bind_apply, hrun]

private theorem readLengthBytes_endless (h : handle.stream.Calm)
    (hahead : Continues (handle.ahead.take left)) (hleft : left ≤ handle.ahead.length) :
    ∃ after, readLengthBytes left handle = .error (.malformed .varintOverflow) after := by
  induction left generalizing handle with
  | zero => exact ⟨handle, rfl⟩
  | succ left ih =>
    cases hbytes : handle.ahead with
    | nil =>
      rw [hbytes] at hleft
      cases hleft
    | cons byte rest =>
      rw [hbytes, List.take_succ_cons] at hahead
      rw [hbytes] at hleft
      have hrest : (handle.advance 1).ahead = rest := by
        rw [Handle.ahead_advance, hbytes]
        rfl
      have hcalm : (handle.advance 1).stream.Calm := h
      obtain ⟨after, hrun⟩ :=
        ih hcalm (hrest ▸ hahead.tail) (by rw [hrest]; exact Nat.le_of_succ_le_succ hleft)
      refine ⟨after, ?_⟩
      rw [readLengthBytes, bind_apply, readLengthByte_eq h hbytes]
      dsimp only
      rw [if_neg hahead.head, bind_apply, hrun]

private theorem readLength_ended (h : handle.stream.Calm)
    (hahead : handle.ahead = front ++ last :: rest) (hfront : Continues front)
    (hlast : last.toNat < 128) (hlength : front.length < maxSize) :
    readLength handle =
      if value (front ++ [last]) <
        2 ^ 32 then .ok (value (front ++ [last])) (handle.advance (front.length + 1))
      else .error (.malformed .varintOverflow) (handle.advance (front.length + 1)) := by
  have hdecode := decode_digits hfront hlast hlength
  rw [readLength, bind_apply, readLengthBytes_ended h hahead hfront hlast hlength]
  dsimp only
  by_cases hsmall : value (front ++ [last]) < 2 ^ 32
  · rw [if_pos hsmall] at hdecode ⊢
    obtain ⟨hfound, -⟩ := Option.filter_eq_some_iff.1 hdecode
    rw [hfound]
    exact congrFun (if_pos hsmall) _
  · rw [if_neg hsmall] at hdecode ⊢
    cases hfound : decode (front ++ [last]) with
    | none => rfl
    | some found =>
      have hlarge : ¬ found.1 < 2 ^ 32 := by simpa [hfound] using hdecode
      exact congrFun (if_neg hlarge) _

private theorem readLength_leadsWith (h : handle.stream.Calm) {n count : Nat}
    (hahead : LeadsWith handle.ahead n count) :
    readLength handle = .ok n (handle.advance count) := by
  obtain ⟨⟨front, last, rest, hbytes, hfront, hlast, rfl, rfl⟩, hshort, hsmall⟩ := hahead
  rw [readLength_ended h hbytes hfront hlast hshort, if_pos hsmall]

private theorem readLength_cutOff (h : handle.stream.Calm) (hahead : CutOff handle.ahead) :
    ∃ after, readLength handle = .error (.malformed .truncatedVarint) after := by
  obtain ⟨after, hrun⟩ := readLengthBytes_cutOff h hahead.continues hahead.short
  exact ⟨after, by rw [readLength, bind_apply, hrun]⟩

private theorem readLength_overflow (h : handle.stream.Calm) (hcut : ¬ CutOff handle.ahead)
    (hlength : ∀ n count, ¬ LeadsWith handle.ahead n count) :
    ∃ after, readLength handle = .error (.malformed .varintOverflow) after := by
  rcases continues_cases maxSize handle.ahead with
    ⟨front, last, rest, hbytes, hfront, hlast, hshort⟩ | ⟨hshort, hahead⟩ | ⟨hlong, hahead⟩
  · refine ⟨handle.advance (front.length + 1), ?_⟩
    rw [readLength_ended h hbytes hfront hlast hshort, if_neg]
    intro hsmall
    exact hlength _ _ ⟨⟨front, last, rest, hbytes, hfront, hlast, rfl, rfl⟩, hshort, hsmall⟩
  · exact (hcut ⟨hshort, hahead⟩).elim
  · obtain ⟨after, hrun⟩ := readLengthBytes_endless h hahead hlong
    exact ⟨after, by rw [readLength, bind_apply, hrun]⟩

/-- A length is read exactly where the bytes ahead begin with one, and then up to its last byte.
Bytes that are cut off are told from bytes that are no length of 32 bits, and there is no other
failure. What writers put in front of a payload is read as the length that they mean, in as many
bytes as the size of a frame counts for it. -/
theorem readLength_outcomes (h : handle.stream.Calm) :
    (∀ n after, readLength handle = .ok n after ↔
      ∃ count, LeadsWith handle.ahead n count ∧ after = handle.advance count) ∧
    ((∃ after, readLength handle = .error (.malformed .truncatedVarint) after) ↔
      CutOff handle.ahead) ∧
    ((∃ after, readLength handle = .error (.malformed .varintOverflow) after) ↔
      ¬ CutOff handle.ahead ∧ ∀ n count, ¬ LeadsWith handle.ahead n count) ∧
    ∀ n rest, n < 2 ^ 32 → handle.ahead = Varint.encode n ++ rest →
      readLength handle = .ok n (handle.advance (Varint.size n)) := by
  refine ⟨fun n after => ⟨fun hread => ?_, ?_⟩, ⟨?_, readLength_cutOff h⟩, ⟨?_, ?_⟩,
    fun n rest hn hahead => readLength_eq h hn hahead⟩
  · by_cases hcut : CutOff handle.ahead
    · obtain ⟨_, hrun⟩ := readLength_cutOff h hcut
      cases hread.symm.trans hrun
    · by_contra hnone
      have hother (m count : Nat) : ¬ LeadsWith handle.ahead m count := by
        intro hahead
        cases hread.symm.trans (readLength_leadsWith h hahead)
        exact hnone ⟨count, hahead, rfl⟩
      obtain ⟨_, hrun⟩ := readLength_overflow h hcut hother
      cases hread.symm.trans hrun
  · rintro ⟨count, hahead, rfl⟩
    exact readLength_leadsWith h hahead
  · rintro ⟨after, hread⟩
    by_contra hcut
    by_cases hlength : ∀ n count, ¬ LeadsWith handle.ahead n count
    · obtain ⟨_, hrun⟩ := readLength_overflow h hcut hlength
      cases hread.symm.trans hrun
    · simp only [not_forall, not_not] at hlength
      obtain ⟨n, count, hahead⟩ := hlength
      cases hread.symm.trans (readLength_leadsWith h hahead)
  · rintro ⟨after, hread⟩
    refine ⟨fun hcut => ?_, fun n count hahead => ?_⟩
    · obtain ⟨_, hrun⟩ := readLength_cutOff h hcut
      cases hread.symm.trans hrun
    · cases hread.symm.trans (readLength_leadsWith h hahead)
  · rintro ⟨hcut, hlength⟩
    exact readLength_overflow h hcut hlength

/-- Ten bytes are read where one would do; an eleventh would be too many. -/
theorem readLength_outcomes_overlong :
    readLength
      ⟨⟨#[0x09, 0x82, 0x80, 0x80, 0x80, 0x80, 0x80, 0x80, 0x80, 0x80, 0x00, 0x09], {}, []⟩, 1⟩ =
      .ok 2 ⟨⟨#[0x09, 0x82, 0x80, 0x80, 0x80, 0x80, 0x80, 0x80, 0x80, 0x80, 0x00, 0x09], {}, []⟩,
        11⟩ := by
  have houtcomes := @readLength_outcomes
    ⟨⟨#[0x09, 0x82, 0x80, 0x80, 0x80, 0x80, 0x80, 0x80, 0x80, 0x80, 0x00, 0x09], {}, []⟩, 1⟩
      (Stream.calm_mk _ _)
  refine (houtcomes.1 2 _).2 ⟨10, ⟨?_, by decide, by decide⟩, rfl⟩
  exact ⟨[0x82, 0x80, 0x80, 0x80, 0x80, 0x80, 0x80, 0x80, 0x80], 0x00, [0x09], rfl,
    by decide, by decide, rfl, by decide⟩

end Frame
end FramedTree
