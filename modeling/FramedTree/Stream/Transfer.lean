import FramedTree.Stream.Basic

/-! # Whole transfers

Single calls may move fewer bytes than asked for or be interrupted. The transfers here repeat them
until everything has been moved, the stream has ended, or a call has failed for good. Bytes that
were moved before a failure stay moved.
-/

namespace FramedTree

/-- Makes a call again as long as it is interrupted, up to `patience` times. -/
def Transfer.retrying {α : Type} (call : Transfer α) : (patience : Nat) → Transfer α
  | 0 => call
  | patience + 1 => fun handle =>
    match call handle with
    | .ok value handle => .ok value handle
    | .error error handle =>
      if error.kind = .interrupted then retrying call patience handle else .error error handle

namespace Handle

/-- A read call that gets past interruptions. -/
def readOnce (count : Nat) : Transfer Bytes := fun handle =>
  (Transfer.retrying (read count) handle.stream.faults.readPatience) handle

def writeOnce (data : Bytes) : Transfer Nat := fun handle =>
  (Transfer.retrying (write data) handle.stream.faults.writePatience) handle

/-- Reads until `count` bytes are there or the stream has ended, in at most `calls` calls. -/
def gather : (calls : Nat) → (count : Nat) → Transfer Bytes
  | 0, _ => return []
  | calls + 1, count => do
    if count = 0 then return []
    let data ← readOnce count
    if data.isEmpty then return []
    return data ++ (← gather calls (count - data.length))

/-- Reads `count` bytes, or fewer at the end of the stream. Every call but the last gives at least
one byte, so that `count` calls are enough. -/
def readUpTo (count : Nat) : Transfer Bytes := gather count count

/-- Reads `count` bytes; the end of the stream is a failure. -/
def readExactly (count : Nat) : Transfer Bytes := do
  let data ← readUpTo count
  if data.length < count then throw IoError.endOfStream
  return data

/-- Reads everything that is left, until a call gives nothing. -/
def readToEnd : Transfer Bytes := do
  let handle ← get
  readUpTo (handle.stream.content.size - handle.position + 1)

/-- Writes `data` in at most `calls` calls. -/
def pour : (calls : Nat) → (data : Bytes) → Transfer Unit
  | 0, _ => return ()
  | calls + 1, data => do
    if data.isEmpty then return ()
    let taken ← writeOnce data
    if taken = 0 then throw IoError.nothingWritten
    pour calls (data.drop taken)

/-- Writes all of `data`. Every call takes at least one byte, so that as many calls as there are
bytes are enough. -/
def writeAll (data : Bytes) : Transfer Unit := pour data.length data

end Handle
end FramedTree
