import FramedTree.Bytes

/-! # Input of readers

What is left of a payload, together with its length. A reader asks for the length at every step, so
it is carried along; it is always the length of the bytes.
-/

namespace FramedTree

/-- Bytes that are still to be read. -/
structure Input where
  bytes : Bytes
  size : Nat := bytes.length
  size_eq : size = bytes.length := by rfl

namespace Input

def ofBytes (bytes : Bytes) : Input := { bytes }

/-- What follows the first `count` bytes. -/
def drop (input : Input) (count : Nat) : Input :=
  ⟨input.bytes.drop count, input.size - count, by simp [input.size_eq]⟩

theorem ext {input other : Input} (h : input.bytes = other.bytes) : input = other := by
  obtain ⟨bytes, size, hsize⟩ := input
  obtain ⟨others, otherSize, hother⟩ := other
  subst hsize hother
  cases h
  rfl

@[simp] theorem bytes_ofBytes (bytes : Bytes) : (ofBytes bytes).bytes = bytes := rfl

@[simp] theorem size_ofBytes (bytes : Bytes) : (ofBytes bytes).size = bytes.length := rfl

@[simp] theorem drop_ofBytes (bytes : Bytes) (count : Nat) :
    (ofBytes bytes).drop count = ofBytes (bytes.drop count) := ext rfl

end Input
end FramedTree
