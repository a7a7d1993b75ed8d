import FramedTree.Error

/-! # Streams and handles

A stream is a byte string that can fail on demand. A handle is a position in a stream; the calls on
it are single transfers, which may move fewer bytes than asked for, and seeks, which the stream
logs. A failing call keeps what earlier calls have done.

A stream may also be awkward to use without being broken: any call may be interrupted, or move fewer
bytes than it could. These hiccups are listed in the order in which they will happen, one for each
call.
-/

namespace FramedTree

/-- Where a seek goes: from the start, or back from the end. -/
inductive SeekTarget where
  | start (position : Nat)
  | fromEnd (back : Nat)
  deriving DecidableEq, Repr

/-- A logged seek: `S` and the position, or `E` and the offset from the end. -/
def SeekTarget.text : SeekTarget → String
  | start position => s!"S{position}"
  | fromEnd 0 => "E0"
  | fromEnd back => s!"E-{back}"

/-- What a fault does to a call. -/
inductive FaultEffect where
  /-- The call fails. -/
  | fail (error : IoError)
  /-- The call succeeds without moving a byte. -/
  | stall
  deriving DecidableEq, Repr

/-- A fault that strikes from `start` on: a position for transfers, a number of calls for seeks. It
is gone after it has struck `times` times, and stays for ever without such a number. -/
structure Fault where
  effect : FaultEffect
  start : Nat := 0
  times : Option Nat := none
  deriving DecidableEq, Repr

namespace Fault

/-- Whether the fault can still strike. -/
def isActive (fault : Fault) : Bool := fault.times != some 0

def struck (fault : Fault) : Fault := { fault with times := fault.times.map (· - 1) }

/-- How often the fault interrupts calls before it is gone; 0 for a fault that does something else,
or that is never gone. -/
def interruptions (fault : Fault) : Nat :=
  match fault.effect with
  | .fail error => if error.kind = .interrupted then fault.times.getD 0 else 0
  | .stall => 0

end Fault

/-- What comes in the way of one transfer, without breaking it for good. -/
inductive Hiccup where
  /-- The call is interrupted before it moves a byte. -/
  | interruption
  /-- The call moves at most `extra` bytes besides the first. -/
  | short (extra : Nat)
  deriving DecidableEq, Repr

/-- All faults of a stream: one for each sort of call, an end that only reads see, a bound on the
bytes that one transfer moves, and the hiccups of the next read calls and write calls. -/
structure Faults where
  read : Option Fault := none
  write : Option Fault := none
  seek : Option Fault := none
  flush : Option Fault := none
  eofAt : Option Nat := none
  chunk : Option Nat := none
  readHiccups : List Hiccup := []
  writeHiccups : List Hiccup := []
  deriving DecidableEq, Repr

namespace Faults

def chunkSize (faults : Faults) (count : Nat) : Nat :=
  match faults.chunk with
  | some bound => min count bound
  | none => count

def chunkOf (faults : Faults) (data : Bytes) : Bytes :=
  match faults.chunk with
  | some bound => data.take bound
  | none => data

/-- How often reads can be interrupted before one goes through, unless they are interrupted for
ever. -/
def readPatience (faults : Faults) : Nat :=
  faults.read.elim 0 (·.interruptions) + faults.readHiccups.length

/-- How often writes can be interrupted before one goes through, unless they are interrupted for
ever. -/
def writePatience (faults : Faults) : Nat :=
  faults.write.elim 0 (·.interruptions) + faults.writeHiccups.length

end Faults

/-- A byte string with its faults and the log of its seeks. -/
structure Stream where
  content : Array UInt8 := #[]
  faults : Faults := {}
  /-- The seeks, the last one first. -/
  seeks : List SeekTarget := []
  deriving DecidableEq, Repr

structure Handle where
  stream : Stream
  position : Nat := 0
  deriving DecidableEq, Repr

/-- An activity on a handle. -/
abbrev Transfer := EStateM IoError Handle

namespace Stream

def bytes (stream : Stream) : Bytes := stream.content.toList

def seekLog (stream : Stream) : List SeekTarget := stream.seeks.reverse

/-- What reads see of the stream. -/
def visible (stream : Stream) : Bytes :=
  match stream.faults.eofAt with
  | some stop => stream.bytes.take stop
  | none => stream.bytes

/-- Up to `count` of the bytes that reads see from `position` on. -/
def slice (stream : Stream) (position count : Nat) : Bytes :=
  let stop := match stream.faults.eofAt with
    | some stop => min (position + count) stop
    | none => position + count
  (stream.content.extract position stop).toList

/-- The content with `data` put over it at `position`; a gap before it is filled with zeros. -/
def overwrite (content : Array UInt8) (position : Nat) (data : Bytes) : Array UInt8 :=
  if content.size ≤ position then
    content ++ Array.replicate (position - content.size) 0 ++ data
  else
    content.extract 0 position ++ data ++ content.extract (position + data.length) content.size

/-- A slice is a part of what reads see. -/
theorem slice_eq (stream : Stream) (position count : Nat) :
    stream.slice position count = (stream.visible.drop position).take count := by
  cases h : stream.faults.eofAt with
  | none => simp [slice, visible, bytes, h]
  | some stop =>
    simp only [slice, visible, bytes, h]
    rw [Array.toList_extract, List.extract_eq_take_drop, List.drop_take, List.take_take]
    congr 1
    omega

/-- The bytes around what was put over them stay. -/
theorem toList_overwrite (content : Array UInt8) (position : Nat) (data : Bytes) :
    (overwrite content position data).toList =
      content.toList.take position ++ List.replicate (position - content.size) 0 ++ data ++
        content.toList.drop (position + data.length) := by
  unfold overwrite
  split
  case isTrue h =>
    have hl : content.toList.length ≤ position := by simpa using h
    simp [List.take_of_length_le hl,
      List.drop_eq_nil_of_le (Nat.le_trans hl (Nat.le_add_right position data.length))]
  case isFalse h =>
    have hgap : position - content.size = 0 := by omega
    have hrest : (content.toList.drop (position + data.length)).length ≤
        content.size - (position + data.length) := by simp
    simp [hgap, List.take_of_length_le hrest]

/-- What is put at the end follows what is there. -/
theorem toList_overwrite_size (content : Array UInt8) (data : Bytes) :
    (overwrite content content.size data).toList = content.toList ++ data := by
  simp [overwrite]

end Stream

namespace Fault

def striking (fault : Option Fault) (position : Nat) : Option Fault :=
  fault.filter fun fault => fault.isActive && decide (fault.start ≤ position)

/-- How many of `count` bytes a transfer at `position` may move before it meets the fault. -/
def room (fault : Option Fault) (position count : Nat) : Nat :=
  match fault.filter (·.isActive) with
  | some fault => min count (fault.start - position)
  | none => count

/-- What a transfer of `data` at `position` may move before it meets the fault. -/
def portion (fault : Option Fault) (position : Nat) (data : Bytes) : Bytes :=
  match fault.filter (·.isActive) with
  | some fault => data.take (fault.start - position)
  | none => data

end Fault

namespace Handle

/-- One read call without hiccups for up to `count` bytes; it gives none at the end. -/
def readPlain (count : Nat) : Transfer Bytes := fun handle =>
  let stream := handle.stream
  match Fault.striking stream.faults.read handle.position with
  | none =>
    let room := Fault.room stream.faults.read handle.position count
    let data := stream.slice handle.position (stream.faults.chunkSize room)
    .ok data { handle with position := handle.position + data.length }
  | some fault =>
    let faults := { stream.faults with read := some fault.struck }
    match fault.effect with
    | .fail error => .error error { handle with stream := { stream with faults } }
    | .stall => .ok [] { handle with stream := { stream with faults } }

/-- The handle without the first of the hiccups that reads meet. -/
def dropReadHiccup (handle : Handle) : Handle :=
  let faults := handle.stream.faults
  let faults := { faults with readHiccups := faults.readHiccups.tail }
  { handle with stream := { handle.stream with faults } }

def read (count : Nat) : Transfer Bytes := fun handle =>
  match handle.stream.faults.readHiccups with
  | [] => readPlain count handle
  | .interruption :: _ => .error IoError.interruption handle.dropReadHiccup
  | .short extra :: _ => readPlain (min count (extra + 1)) handle.dropReadHiccup

/-- One write call without hiccups; it gives the number of bytes that the stream took. -/
def writePlain (data : Bytes) : Transfer Nat := fun ⟨⟨content, faults, seeks⟩, position⟩ =>
  match Fault.striking faults.write position with
  | none =>
    let taken := Fault.portion faults.write position (faults.chunkOf data)
    let content := Stream.overwrite content position taken
    .ok taken.length ⟨⟨content, faults, seeks⟩, position + taken.length⟩
  | some fault =>
    let faults := { faults with write := some fault.struck }
    match fault.effect with
    | .fail error => .error error ⟨⟨content, faults, seeks⟩, position⟩
    | .stall => .ok 0 ⟨⟨content, faults, seeks⟩, position⟩

def write (data : Bytes) : Transfer Nat := fun ⟨⟨content, faults, seeks⟩, position⟩ =>
  match faults.writeHiccups with
  | [] => writePlain data ⟨⟨content, faults, seeks⟩, position⟩
  | .interruption :: rest =>
    .error IoError.interruption ⟨⟨content, { faults with writeHiccups := rest }, seeks⟩, position⟩
  | .short extra :: rest =>
    writePlain (data.take (extra + 1))
      ⟨⟨content, { faults with writeHiccups := rest }, seeks⟩, position⟩

/-- Moves the handle and gives its new position. The seek is logged even if it fails. -/
def seek (target : SeekTarget) : Transfer Nat := fun handle =>
  let stream := { handle.stream with seeks := target :: handle.stream.seeks }
  let position := match target with
    | .start position => position
    | .fromEnd back => stream.content.size - back
  match stream.faults.seek.filter (·.isActive) with
  | none => .ok position ⟨stream, position⟩
  | some fault =>
    if 0 < fault.start then
      let faults := { stream.faults with seek := some { fault with start := fault.start - 1 } }
      .ok position ⟨{ stream with faults }, position⟩
    else
      let faults := { stream.faults with seek := some fault.struck }
      match fault.effect with
      | .fail error => .error error ⟨{ stream with faults }, handle.position⟩
      | .stall => .ok position ⟨{ stream with faults }, position⟩

def flush : Transfer Unit := fun handle =>
  let stream := handle.stream
  match stream.faults.flush.filter (·.isActive) with
  | none => .ok () handle
  | some fault =>
    let faults := { stream.faults with flush := some fault.struck }
    match fault.effect with
    | .fail error => .error error { handle with stream := { stream with faults } }
    | .stall => .ok () { handle with stream := { stream with faults } }

end Handle
end FramedTree
