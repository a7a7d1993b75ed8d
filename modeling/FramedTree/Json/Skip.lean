import FramedTree.Json.Reader

/-! # Skipping JSON values

A value of no interest is only checked to be a JSON value: of any depth, with numbers of any size
and with text that need not be UTF-8. Open lists and objects are kept on a stack.
-/

namespace FramedTree.Json

inductive Bracket where
  | list
  | object
  deriving DecidableEq, Repr

def Bracket.closing : Bracket → UInt8
  | list => byte ']'
  | object => byte '\x7d'

/-- What a text that ends inside a list or object lacks. -/
def Bracket.unfinished : Bracket → JsonError
  | list => .eofInList
  | object => .eofInObject

/-- What is missing behind a value in a list or object. -/
def Bracket.expected : Bracket → JsonError
  | list => .expectedListCommaOrEnd
  | object => .expectedObjectCommaOrEnd

inductive Phase where
  /-- A value comes next. -/
  | value
  /-- A value has just ended. -/
  | behind
  deriving DecidableEq, Repr

def skipEscape : JsonReader Bytes := do
  match ← next with
  | none => throw .eofInString
  | some letter =>
    if (simpleEscape? letter).isSome then return []
    else if letter = byte 'u' then do
      discard readHex
      return []
    else throw .invalidEscape

def skipString : JsonReader Unit := do discard (readStringWith skipEscape (← get))

def skipDigits : JsonReader Unit := do
  if (← readDigits).isEmpty then throw .invalidNumber

def skipExponent : JsonReader Unit := do
  let mark ← peek
  if mark = some (byte 'e') ∨ mark = some (byte 'E') then
    advance
    let sign ← peek
    if sign = some (byte '+') ∨ sign = some (byte '-') then advance
    skipDigits

def skipNumber : JsonReader Unit := do
  let digits ← readDigits
  if digits.isEmpty ∨ (digits.head? = some 0 ∧ 1 < digits.length) then throw .invalidNumber
  if (← peek) = some (byte '.') then
    advance
    skipDigits
  skipExponent

def skipKey : JsonReader Unit := do
  match ← peekToken with
  | none => throw .eofInObject
  | some b =>
    if b ≠ byte '"' then throw .keyMustBeString
    advance
    skipString
    match ← peekToken with
    | none => throw .eofInObject
    | some b => if b = byte ':' then advance else throw .expectedColon

/-- Leaves out what comes before the next value of a list or object: a key in an object. -/
def Bracket.skipToValue : Bracket → JsonReader Unit
  | list => return ()
  | object => skipKey

/-- Leaves out the bracket that opens a list or object, and what comes before its first value. An
empty one is left out as a whole. -/
def skipOpening (bracket : Bracket) (outer : List Bracket) : JsonReader (Phase × List Bracket) := do
  advance
  match ← peekToken with
  | none => throw bracket.unfinished
  | some b =>
    if b = bracket.closing then
      advance
      return (.behind, outer)
    else
      bracket.skipToValue
      return (.value, bracket :: outer)

/-- One step at a value: a plain value is left out, a list or object is opened. -/
def skipStart (stack : List Bracket) : JsonReader (Phase × List Bracket) := do
  match ← peekToken with
  | none => throw .eofInValue
  | some b =>
    if b = byte '[' then skipOpening .list stack
    else if b = byte '\x7b' then skipOpening .object stack
    else
      if b = byte 'n' then
        advance
        readWord ['u', 'l', 'l']
      else if b = byte 't' then
        advance
        readWord ['r', 'u', 'e']
      else if b = byte 'f' then
        advance
        readWord ['a', 'l', 's', 'e']
      else if b = byte '-' then
        advance
        skipNumber
      else if isDigit b then skipNumber
      else if b = byte '"' then
        advance
        skipString
      else throw .expectedValue
      return (.behind, stack)

def skipBehind (bracket : Bracket) (outer : List Bracket) : JsonReader (Phase × List Bracket) := do
  match ← peekToken with
  | none => throw bracket.unfinished
  | some b =>
    if b = byte ',' then
      advance
      bracket.skipToValue
      return (.value, bracket :: outer)
    else if b = bracket.closing then
      advance
      return (.behind, outer)
    else throw bracket.expected

/-- Leaves out the rest of a value. Every step takes at least one byte, so that one step for each
byte of the input, which is `fuel`, is enough. -/
def skipFrom : (fuel : Bytes) → Phase → List Bracket → JsonReader Unit
  | _, .behind, [] => return ()
  | [], .value, _ => throw .eofInValue
  | [], .behind, bracket :: _ => throw bracket.unfinished
  | _ :: fuel, .value, stack => do
    let (phase, stack) ← skipStart stack
    skipFrom fuel phase stack
  | _ :: fuel, .behind, bracket :: outer => do
    let (phase, stack) ← skipBehind bracket outer
    skipFrom fuel phase stack

def skipValue : JsonReader Unit := do skipFrom (← get) .value []

end FramedTree.Json
