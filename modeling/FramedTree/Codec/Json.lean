import FramedTree.Codec
import FramedTree.Json.Skip

/-! # Codec settings as JSON

Settings are an object with two fields, each of which may be missing, or a list of their values in
order. Fields of other names are skipped. A limit of zero is refused once the whole text has been
read.
-/

namespace FramedTree

inductive CodecError where
  | json (cause : JsonError)
  | zeroLimit
  deriving DecidableEq, Repr

def CodecError.message : CodecError → String
  | json cause => "serde error: " ++ cause.message
  | zeroLimit => "invalid config: max_frame_len must be non-zero"

namespace Codec

open Json

def limitField : String := "max_frame_len"

def verifyField : String := "verify_trailer"

structure Fields where
  limit : Option UInt32 := none
  verify : Option Bool := none
  deriving DecidableEq, Repr

/-- The settings with defaults for the fields that are missing. -/
def Fields.toCodec (fields : Fields) : Codec :=
  { maxFrameLen := fields.limit.getD ({} : Codec).maxFrameLen
    verifyTrailer := fields.verify.getD ({} : Codec).verifyTrailer }

/-- Whether another item of a list follows; a comma in front of it is left out. -/
def hasItem (isFirst : Bool) : JsonReader Bool := do
  match ← peekToken with
  | none => throw .eofInList
  | some b =>
    if b = byte ']' then return false
    else if isFirst then return true
    else if b = byte ',' then do
      advance
      match ← peekToken with
      | none => throw .eofInValue
      | some b => if b = byte ']' then throw .trailingComma else return true
    else throw .expectedListCommaOrEnd

def endList : JsonReader Unit := do
  match ← peekToken with
  | none => throw .eofInList
  | some b =>
    if b = byte ']' then advance
    else if b = byte ',' then do
      advance
      throw (if (← peekToken) = some (byte ']') then .trailingComma else .trailingCharacters)
    else throw .trailingCharacters

def readList : JsonReader Fields := do
  let limit ← if ← hasItem true then some <$> readUInt32 else pure none
  let verify ← if ← hasItem limit.isNone then some <$> readBool else pure none
  endList
  return { limit, verify }

/-- Whether another field of an object follows; a comma in front of it is left out. -/
def hasField (isFirst : Bool) : JsonReader Bool := do
  match ← peekToken with
  | none => throw .eofInObject
  | some b =>
    if b = byte '\x7d' then return false
    else if isFirst then
      if b = byte '"' then return true else throw .keyMustBeString
    else if b = byte ',' then do
      advance
      match ← peekToken with
      | none => throw .eofInValue
      | some b =>
        if b = byte '"' then return true
        else if b = byte '\x7d' then throw .trailingComma
        else throw .keyMustBeString
    else throw .expectedObjectCommaOrEnd

def readColon : JsonReader Unit := do
  match ← peekToken with
  | none => throw .eofInObject
  | some b => if b = byte ':' then advance else throw .expectedColon

/-- Reads the value of a field into `fields`. A known field may come only once. -/
def readField (name : String) (fields : Fields) : JsonReader Fields := do
  if name = limitField then
    if fields.limit.isSome then throw (.duplicateField name)
    readColon
    return { fields with limit := some (← readUInt32) }
  else if name = verifyField then
    if fields.verify.isSome then throw (.duplicateField name)
    readColon
    return { fields with verify := some (← readBool) }
  else
    readColon
    skipValue
    return fields

/-- Reads the fields of an object up to its end. Every field takes at least one byte, so that one
step for each byte of the input, which is `fuel`, is enough. -/
def readFields : (fuel : Bytes) → (isFirst : Bool) → Fields → JsonReader Fields
  | [], _, _ => throw .eofInObject
  | _ :: fuel, isFirst, fields => do
    if ← hasField isFirst then
      advance
      let name ← readString
      readFields fuel false (← readField name fields)
    else
      advance
      return fields

def readCodec : JsonReader Fields := do
  match ← peekToken with
  | none => throw .eofInValue
  | some b =>
    if b = byte '[' then do
      advance
      readList
    else if b = byte '\x7b' then do
      advance
      readFields (← get) true {}
    else refuse "struct CodecConfig"

def readWhole : JsonReader Fields := do
  let fields ← readCodec
  if (← peekToken).isSome then throw .trailingCharacters
  return fields

def ofJson (text : Bytes) : Except CodecError Codec :=
  match readWhole.run' text with
  | .error error => .error (.json error)
  | .ok fields =>
    if fields.toCodec.maxFrameLen = 0 then .error .zeroLimit else .ok fields.toCodec

def toJson (codec : Codec) : String :=
  "\x7b\n  \"" ++ limitField ++ "\": " ++ toString codec.maxFrameLen.toNat ++ ",\n  \"" ++
    verifyField ++ "\": " ++ (if codec.verifyTrailer then "true" else "false") ++ "\n\x7d"

end Codec
end FramedTree
