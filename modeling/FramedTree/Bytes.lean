/-! # Byte strings

Byte strings are lists, so that concatenation, prefixes and positions are those of `List`. The only
fixed-width number a frame holds is its 32-bit little-endian trailer.
-/

namespace FramedTree

/-- A byte string. -/
abbrev Bytes := List UInt8

namespace Bytes

def ofWord32 (word : UInt32) : Bytes :=
  [word.toNat, word.toNat / 256, word.toNat / 65536, word.toNat / 16777216].map Nat.toUInt8

/-- The number whose base-256 digits are `bytes`, lowest first. -/
def toNat : Bytes → Nat
  | [] => 0
  | b :: rest => b.toNat + 256 * toNat rest

/-- Little-endian words read back. -/
theorem toNat_ofWord32 (word : UInt32) : toNat (ofWord32 word) = word.toNat := by
  have h := word.toNat_lt
  simp only [ofWord32, List.map_cons, List.map_nil, toNat, Nat.toUInt8_eq, UInt8.toNat_ofNat']
  omega

end Bytes
end FramedTree
