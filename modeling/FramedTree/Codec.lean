/-! # Codec settings

How long a frame may be, and whether the two lengths that a root frame carries are compared.
-/

namespace FramedTree

/-- Settings of a frame codec. -/
structure Codec where
  /-- Longest payload that is written or read. -/
  maxFrameLen : UInt32 := 67108864
  /-- Whether a root frame's trailer has to agree with the length in front of it. -/
  verifyTrailer : Bool := true
  deriving DecidableEq, Repr

namespace Codec

def describe (codec : Codec) : String :=
  "CodecConfig \x7b max_frame_len: " ++ toString codec.maxFrameLen.toNat ++
    ", verify_trailer: " ++ (if codec.verifyTrailer then "true" else "false") ++ " \x7d"

end Codec
end FramedTree
