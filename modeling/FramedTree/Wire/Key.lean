import FramedTree.Wire.DecodeError
import FramedTree.Wire.Varint

/-! # Field keys

Every field of a message starts with a key: the varint of its tag and its layout.
-/

namespace FramedTree

def Varint.read : Reader Nat := fun input =>
  match Varint.decode input.bytes with
  | some (n, count) => .ok (n, input.drop count)
  | none => DecodeFault.invalidVarint.raise input

structure Key where
  tag : Nat
  wire : WireType
  deriving DecidableEq, Repr

namespace Key

/-- The key as one number. -/
def toNat (key : Key) : Nat := 8 * key.tag + key.wire.code

def encode (key : Key) : Bytes := Varint.encode key.toNat

/-- Reads a key. The number has to fit 32 bits, the layout has to exist and the tag has to be
positive; they are looked at in this order. -/
def read : Reader Key := do
  let key ← Varint.read
  if UInt32.size ≤ key then
    (DecodeFault.invalidKey key).raise
  else match WireType.ofCode? (key % 8) with
    | none => (DecodeFault.invalidWireType (key % 8)).raise
    | some wire => if key / 8 = 0 then DecodeFault.invalidTag.raise else return ⟨key / 8, wire⟩

end Key
end FramedTree
