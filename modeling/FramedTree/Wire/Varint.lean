import FramedTree.Bytes

/-! # Base-128 varints

A varint holds seven bits of a number per byte, lowest first; every byte but the last has its high
bit set. Numbers here are natural numbers below `2 ^ 64`, which take at most ten bytes, so the tenth
byte can only be 0 or 1.
-/

namespace FramedTree.Varint

/-- The longest varint that is read. -/
def maxSize : Nat := 10

def encode (n : Nat) : Bytes :=
  if n < 128 then [n.toUInt8] else (n % 128 + 128).toUInt8 :: encode (n / 128)
termination_by n
decreasing_by omega

/-- Number of bytes of the varint of `n`: one for every seven bits, and one for zero. -/
def size (n : Nat) : Nat := n.log2 / 7 + 1

/-- The number of the varint at the start of the input, whose first byte is byte `place` of it, and
how many bytes it takes. -/
def decodeFrom (place : Nat) : Bytes → Option (Nat × Nat)
  | [] => none
  | b :: rest =>
    if b.toNat < 128 then
      if place + 1 = maxSize ∧ 1 < b.toNat then none else some (b.toNat, 1)
    else if place + 1 = maxSize then none
    else (decodeFrom (place + 1) rest).map fun (high, count) =>
      (b.toNat - 128 + 128 * high, count + 1)

/-- The number at the start of the input and how many bytes it takes. Input that ends inside the
number, an eleventh byte and a number of `2 ^ 64` or more give `none`. -/
def decode (input : Bytes) : Option (Nat × Nat) := decodeFrom 0 input

private theorem log2_div_128 (n : Nat) (h : 128 ≤ n) : n.log2 = (n / 128).log2 + 7 := by
  have hn : n ≠ 0 := by omega
  have hd : n / 128 ≠ 0 := by omega
  apply Nat.le_antisymm
  · have hk : 7 ≤ n.log2 := (Nat.le_log2 hn).2 h
    have hpow : 2 ^ (n.log2 - 7) * 128 ≤ n := by
      have := (Nat.le_log2 hn).1 (Nat.le_refl n.log2)
      rwa [show n.log2 = n.log2 - 7 + 7 by omega, Nat.pow_add] at this
    have := (Nat.le_log2 hd).2 ((Nat.le_div_iff_mul_le (by decide)).2 hpow)
    omega
  · apply (Nat.le_log2 hn).2
    have := (Nat.le_log2 hd).1 (Nat.le_refl (n / 128).log2)
    rw [Nat.pow_add]
    omega

/-- The size is the number of bytes. -/
@[simp] theorem length_encode (n : Nat) : (encode n).length = size n := by
  fun_induction encode n with
  | case1 n h =>
    have : n.log2 < 7 := by
      by_cases hn : n = 0
      · simp [hn]
      · exact (Nat.log2_lt hn).2 h
    simp only [List.length_cons, List.length_nil, size]
    omega
  | case2 n h ih =>
    have := log2_div_128 n (by omega)
    simp only [List.length_cons, ih, size]
    omega

end FramedTree.Varint
