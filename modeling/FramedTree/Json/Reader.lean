import FramedTree.Bytes
import FramedTree.Json.Error

/-! # Reading JSON

Readers for the parts of a JSON text that carry a value. They work on bytes; a text that is wanted
as a text has to be UTF-8 once its escapes are resolved.
-/

namespace FramedTree

/-- A reader of part of a JSON text. -/
abbrev JsonReader := StateT Bytes (Except JsonError)

namespace Json

def byte (c : Char) : UInt8 := c.toNat.toUInt8

def isDigit (b : UInt8) : Bool := decide (48 ≤ b.toNat ∧ b.toNat ≤ 57)

def isBlank (b : UInt8) : Bool := b == 32 || b == 9 || b == 10 || b == 13

/-- The next byte, which stays. -/
def peek : JsonReader (Option UInt8) := do return (← get).head?

/-- Leaves out the next byte. -/
def advance : JsonReader Unit := modify (·.drop 1)

/-- The next byte, which is taken. -/
def next : JsonReader (Option UInt8) := do
  let found ← peek
  advance
  return found

def peekToken : JsonReader (Option UInt8) := do
  modify (·.dropWhile isBlank)
  peek

def readDigits : JsonReader (List Nat) := fun input =>
  .ok ((input.takeWhile isDigit).map (·.toNat - 48), input.dropWhile isDigit)

/-- Reads the rest of a word whose first letter has been seen. -/
def readWord : (rest : List Char) → JsonReader Unit
  | [] => return ()
  | c :: rest => do
    match ← next with
    | none => throw .eofInValue
    | some found => if found = byte c then readWord rest else throw .expectedIdent

/-- Takes digits into a 64-bit number as long as they fit, and gives the number of digits taken. -/
def absorb (n : Nat) : List Nat → Nat × Nat
  | [] => (n, 0)
  | digit :: rest =>
    if UInt64.size ≤ 10 * n + digit then (n, 0)
    else
      let (n, taken) := absorb (10 * n + digit) rest
      (n, taken + 1)

/-- The number `x * 10 ^ exponent`, by one multiplication or by divisions by at most `10 ^ 308`. One
below `2 ^ 64` is used up after two divisions. -/
def scaleByTen : (rounds : Nat) → Binary64 → Int → Option Binary64
  | rounds, x, exponent =>
    if exponent.natAbs ≤ 308 then do
      let power ← Binary64.ofNat (Nat.pow 10 exponent.natAbs)
      if 0 ≤ exponent then x.mul power else x.div power
    else if x.isZero then some x
    else if 0 ≤ exponent then none
    else match rounds with
      | 0 => some .zero
      | rounds + 1 => do
        scaleByTen rounds (← x.div (← Binary64.ofNat (Nat.pow 10 308))) (exponent + 308)

/-- The floating-point number `significand * 10 ^ exponent`. -/
def floatOf (negative : Bool) (significand : Nat) (exponent : Int) : JsonReader JsonNumber :=
  match (do scaleByTen 3 (← Binary64.ofNat significand) exponent) with
  | some value => return .float negative value
  | none => throw .numberOutOfRange

/-- The number that digits of an exponent stand for, or `2 ^ 31` if it is larger. -/
def exponentOf (digits : List Nat) : Nat :=
  digits.foldl (fun n digit => min (10 * n + digit) (Nat.pow 2 31)) 0

/-- Reads an exponent, whose mark comes next. One of `2 ^ 31` or more leaves nothing of a number, or
too much of it. -/
def readExponent (negative : Bool) (significand : Nat) (exponent : Int) : JsonReader JsonNumber :=
  do
  advance
  let sign ← peek
  if sign = some (byte '+') ∨ sign = some (byte '-') then advance
  match ← peek with
  | none => throw .eofInValue
  | some first =>
    if !isDigit first then throw .invalidNumber
    let written := exponentOf (← readDigits)
    if written < Nat.pow 2 31 then
      let shift : Int := if sign = some (byte '-') then -(written : Int) else written
      floatOf negative significand (exponent + shift)
    else if significand ≠ 0 ∧ sign ≠ some (byte '-') then throw .numberOutOfRange
    else return .float negative .zero

/-- Reads digits behind a point, which comes next. Digits that no longer fit are of no
consequence. -/
def readFraction (negative : Bool) (significand : Nat) (exponent : Int) : JsonReader JsonNumber :=
  do
  advance
  let digits ← readDigits
  if digits.isEmpty then
    throw (if (← peek).isNone then .eofInValue else .invalidNumber)
  let (significand, taken) := absorb significand digits
  let mark ← peek
  if mark = some (byte 'e') ∨ mark = some (byte 'E') then
    readExponent negative significand (exponent - taken)
  else floatOf negative significand (exponent - taken)

def readNumber (negative : Bool) : JsonReader JsonNumber := do
  match ← peek with
  | none => throw .eofInValue
  | some first =>
    if !isDigit first then throw .invalidNumber
    let digits ← readDigits
    if digits.head? = some 0 ∧ 1 < digits.length then throw .invalidNumber
    let (significand, taken) := absorb 0 digits
    let dropped := digits.length - taken
    let mark ← peek
    if mark = some (byte '.') then readFraction negative significand dropped
    else if mark = some (byte 'e') ∨ mark = some (byte 'E') then
      readExponent negative significand dropped
    else if dropped ≠ 0 then floatOf negative significand dropped
    else if !negative then return .natural significand
    else if significand = 0 ∨ Nat.pow 2 63 < significand then floatOf true significand 0
    else return .negative significand

def hexValue? (b : UInt8) : Option Nat :=
  let n := b.toNat
  if 48 ≤ n ∧ n ≤ 57 then some (n - 48)
  else if 97 ≤ n ∧ n ≤ 102 then some (n - 87)
  else if 65 ≤ n ∧ n ≤ 70 then some (n - 55)
  else none

def readHex : JsonReader Nat := fun input =>
  match input with
  | a :: b :: c :: d :: rest =>
    match hexValue? a, hexValue? b, hexValue? c, hexValue? d with
    | some a, some b, some c, some d => .ok (4096 * a + 256 * b + 16 * c + d, rest)
    | _, _, _, _ => .error .invalidEscape
  | _ => .error .eofInString

def simpleEscape? (b : UInt8) : Option UInt8 :=
  ([('"', 34), ('\\', 92), ('/', 47), ('b', 8), ('f', 12), ('n', 10), ('r', 13), ('t', 9)].find?
    fun (letter, _) => byte letter = b).map (·.2)

def utf8 (code : Nat) : Bytes := (String.singleton (Char.ofNat code)).toByteArray.data.toList

def expectInString (c : Char) : JsonReader Unit := do
  match ← next with
  | none => throw .eofInString
  | some found => if found = byte c then return () else throw .unfinishedSurrogate

/-- Reads a numeric escape behind its letter. The halves of a character beyond 16 bits have to
follow each other. -/
def readCodePoint : JsonReader Bytes := do
  let unit ← readHex
  if 0xDC00 ≤ unit ∧ unit ≤ 0xDFFF then throw .loneSurrogate
  else if unit < 0xD800 ∨ 0xDBFF < unit then return utf8 unit
  else
    expectInString '\\'
    expectInString 'u'
    let low ← readHex
    if low < 0xDC00 ∨ 0xDFFF < low then throw .loneSurrogate
    else return utf8 (0x10000 + 0x400 * (unit - 0xD800) + (low - 0xDC00))

def readEscape : JsonReader Bytes := do
  match ← next with
  | none => throw .eofInString
  | some letter =>
    match simpleEscape? letter with
    | some b => return [b]
    | none => if letter = byte 'u' then readCodePoint else throw .invalidEscape

/-- Reads a string behind its opening quote, each escape by `escape`. Every step takes at least one
byte, so that one step for each byte of the input, which is `fuel`, is enough. -/
def readStringWith (escape : JsonReader Bytes) : (fuel : Bytes) → JsonReader Bytes
  | [] => throw .eofInString
  | _ :: fuel => do
    match ← next with
    | none => throw .eofInString
    | some b =>
      if b = byte '"' then return []
      else if b = byte '\\' then do
        let content ← escape
        return content ++ (← readStringWith escape fuel)
      else if b.toNat < 32 then throw .controlCharacter
      else return b :: (← readStringWith escape fuel)

def readString : JsonReader String := do
  let content ← readStringWith readEscape (← get)
  match String.fromUTF8? ⟨content.toArray⟩ with
  | some text => return text
  | none => throw .invalidCodePoint

/-- Refuses the value that comes next, where `expected` is needed. Lists and objects are not looked
into. -/
def refuse {α : Type} (expected : String) : JsonReader α := do
  match ← peek with
  | none => throw .expectedValue
  | some b =>
    if b = byte 'n' then do
      advance
      readWord ['u', 'l', 'l']
      throw (.wrongType .null expected)
    else if b = byte 't' then do
      advance
      readWord ['r', 'u', 'e']
      throw (.wrongType (.bool true) expected)
    else if b = byte 'f' then do
      advance
      readWord ['a', 'l', 's', 'e']
      throw (.wrongType (.bool false) expected)
    else if b = byte '-' then do
      advance
      throw (.wrongType (.number (← readNumber true)) expected)
    else if isDigit b then throw (.wrongType (.number (← readNumber false)) expected)
    else if b = byte '"' then do
      advance
      throw (.wrongType (.string (← readString)) expected)
    else if b = byte '[' then throw (.wrongType .sequence expected)
    else if b = byte '\x7b' then throw (.wrongType .map expected)
    else throw .expectedValue

def readUInt32 : JsonReader UInt32 := do
  match ← peekToken with
  | none => throw .eofInValue
  | some b =>
    if b = byte '-' ∨ isDigit b then do
      if b = byte '-' then advance
      match ← readNumber (b = byte '-') with
      | .natural n =>
        if n < UInt32.size then return n.toUInt32
        else throw (.wrongValue (.number (.natural n)) "u32")
      | .negative n => throw (.wrongValue (.number (.negative n)) "u32")
      | number => throw (.wrongType (.number number) "u32")
    else refuse "u32"

def readBool : JsonReader Bool := do
  match ← peekToken with
  | none => throw .eofInValue
  | some b =>
    if b = byte 't' then do
      advance
      readWord ['r', 'u', 'e']
      return true
    else if b = byte 'f' then do
      advance
      readWord ['a', 'l', 's', 'e']
      return false
    else refuse "a boolean"

end Json
end FramedTree
