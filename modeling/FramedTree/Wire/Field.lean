import FramedTree.Wire.Key

/-! # Field values

Readers for the value behind a key. A reader sees everything that is left of the payload: a part of
announced length is checked to end exactly where it says, but its items are read from the whole
rest. Fields of unknown tags are skipped; their groups nest up to a budget.
-/

namespace FramedTree.Field

/-- How deep messages and groups nest in one payload. -/
def nestingBudget : Nat := 100

/-- Refuses a value whose layout is not the one its field has. -/
def expect (expected found : WireType) : Reader Unit :=
  if found = expected then return () else (DecodeFault.unexpectedWireType found expected).raise

def readBytes (count : Nat) : Reader Bytes := fun input =>
  if input.size < count then DecodeFault.underflow.raise input
  else .ok (input.bytes.take count, input.drop count)

/-- Runs `step` until at most `stop` bytes are left, which have to be exactly `stop`. Every step
takes at least one byte, so that as many steps as there are bytes are enough. -/
def repeatUntil {α : Type} (stop : Nat) (step : α → Reader α) : (steps : Nat) → α → Reader α
  | 0, value => fun rest =>
    if rest.size = stop then .ok (value, rest) else DecodeFault.lengthExceeded.raise rest
  | steps + 1, value => fun rest =>
    if stop < rest.size then (do repeatUntil stop step steps (← step value)) rest
    else if rest.size = stop then .ok (value, rest)
    else DecodeFault.lengthExceeded.raise rest

/-- Reads a part that announces its length, item by item. -/
def readDelimited {α : Type} (step : α → Reader α) (value : α) : Reader α := do
  let length ← Varint.read
  let rest ← get
  if rest.size < length then DecodeFault.underflow.raise
  else repeatUntil (rest.size - length) step rest.size value

def readWord (wire : WireType) : Reader UInt64 := do
  expect .varint wire
  return (← Varint.read).toUInt64

def readText (wire : WireType) : Reader String := do
  expect .lengthDelimited wire
  let content ← readBytes (← Varint.read)
  match String.fromUTF8? ⟨content.toArray⟩ with
  | some text => return text
  | none => DecodeFault.notUtf8.raise

/-- Reads one occurrence of a list of numbers, packed or single. The numbers so far and those that
are read come last one first. -/
def readWords (wire : WireType) (sofar : List UInt64) : Reader (List UInt64) :=
  if wire = .lengthDelimited then
    readDelimited (fun sofar => return (← readWord .varint) :: sofar) sofar
  else
    return (← readWord wire) :: sofar

/-- Leaves out the fields of a group up to its end key, each by `skipField`. Every field takes at
least its key, so that as many steps as there are bytes are enough. -/
def skipGroup (skipField : Key → Reader Unit) (tag : Nat) : (steps : Nat) → Reader Unit
  | 0 => DecodeFault.invalidVarint.raise
  | steps + 1 => do
    let key ← Key.read
    if key.wire = .endGroup then
      if key.tag = tag then return () else DecodeFault.unexpectedEndGroup.raise
    else
      skipField key
      skipGroup skipField tag steps

def skip : (budget : Nat) → Key → Reader Unit
  | 0, _ => DecodeFault.recursionLimit.raise
  | budget + 1, key =>
    match key.wire with
    | .varint => do discard Varint.read
    | .sixtyFourBit => do discard (readBytes 8)
    | .thirtyTwoBit => do discard (readBytes 4)
    | .lengthDelimited => do discard (readBytes (← Varint.read))
    | .startGroup => do skipGroup (fun key => skip budget key) key.tag (← get).size
    | .endGroup => DecodeFault.unexpectedEndGroup.raise

def encodeWord (tag : Nat) (word : UInt64) : Bytes :=
  Key.encode ⟨tag, .varint⟩ ++ Varint.encode word.toNat

/-- Bytes of a field that holds `payload` behind its length. -/
def encodeDelimited (tag : Nat) (payload : Bytes) : Bytes :=
  Key.encode ⟨tag, .lengthDelimited⟩ ++ Varint.encode payload.length ++ payload

/-- Bytes of a list of numbers: packed, and nothing at all when it is empty. -/
def encodeWords (tag : Nat) (words : List UInt64) : Bytes :=
  if words.isEmpty then []
  else encodeDelimited tag (words.flatMap fun word => Varint.encode word.toNat)

def wordSize (tag : Nat) (word : UInt64) : Nat :=
  Varint.size (8 * tag) + Varint.size word.toNat

/-- Size of `encodeDelimited` for a payload of the given length. -/
def delimitedSize (tag length : Nat) : Nat :=
  Varint.size (8 * tag) + Varint.size length + length

def wordsSize (tag : Nat) (words : List UInt64) : Nat :=
  if words.isEmpty then 0
  else delimitedSize tag (words.foldr (fun word total => Varint.size word.toNat + total) 0)

end FramedTree.Field
