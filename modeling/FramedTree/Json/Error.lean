import FramedTree.Decimal.Shortest
import FramedTree.Text.Quoted

/-! # Reasons why a JSON text is refused

The wording of every reason is in `JsonError.message`.
-/

namespace FramedTree

/-- A number in a JSON text. Integers of 64 bits are kept as such, all others as floating-point
numbers. -/
inductive JsonNumber where
  | natural (n : Nat)
  /-- The integer `-n`, for `n` other than zero. -/
  | negative (n : Nat)
  | float (negative : Bool) (value : Binary64)
  deriving DecidableEq, Repr

inductive FoundValue where
  | null
  | bool (value : Bool)
  | number (value : JsonNumber)
  | string (value : String)
  | sequence
  | map
  deriving DecidableEq, Repr

/-- Floating-point numbers are written in full from `10 ^ -5` to below `10 ^ 16`, and otherwise with
a signed exponent. -/
def JsonNumber.layout : Decimal.Layout := ⟨-5, 15, 1⟩

def FoundValue.describe : FoundValue → String
  | null => "null"
  | bool value => "boolean `" ++ (if value then "true" else "false") ++ "`"
  | number (.natural n) => "integer `" ++ toString n ++ "`"
  | number (.negative n) => "integer `-" ++ toString n ++ "`"
  | number (.float negative value) =>
    "floating point `" ++ Decimal.textOf JsonNumber.layout negative value ++ "`"
  | string value => "string " ++ Text.quoted value
  | sequence => "sequence"
  | map => "map"

inductive JsonError where
  | eofInValue
  | eofInObject
  | eofInList
  | eofInString
  | expectedValue
  | expectedIdent
  | expectedColon
  | expectedListCommaOrEnd
  | expectedObjectCommaOrEnd
  | keyMustBeString
  | trailingComma
  | trailingCharacters
  | invalidNumber
  | numberOutOfRange
  | invalidEscape
  | controlCharacter
  | invalidCodePoint
  | loneSurrogate
  | unfinishedSurrogate
  | wrongType (found : FoundValue) (expected : String)
  | wrongValue (found : FoundValue) (expected : String)
  | duplicateField (name : String)
  deriving DecidableEq, Repr

def JsonError.message : JsonError → String
  | eofInValue => "EOF while parsing a value"
  | eofInObject => "EOF while parsing an object"
  | eofInList => "EOF while parsing a list"
  | eofInString => "EOF while parsing a string"
  | expectedValue => "expected value"
  | expectedIdent => "expected ident"
  | expectedColon => "expected `:`"
  | expectedListCommaOrEnd => "expected `,` or `]`"
  | expectedObjectCommaOrEnd => "expected `,` or `\x7d`"
  | keyMustBeString => "key must be a string"
  | trailingComma => "trailing comma"
  | trailingCharacters => "trailing characters"
  | invalidNumber => "invalid number"
  | numberOutOfRange => "number out of range"
  | invalidEscape => "invalid escape"
  | controlCharacter => "control character (\\u0000-\\u001F) found while parsing a string"
  | invalidCodePoint => "invalid unicode code point"
  | loneSurrogate => "lone leading surrogate in hex escape"
  | unfinishedSurrogate => "unexpected end of hex escape"
  | wrongType found expected => "invalid type: " ++ found.describe ++ ", expected " ++ expected
  | wrongValue found expected => "invalid value: " ++ found.describe ++ ", expected " ++ expected
  | duplicateField name => "duplicate field `" ++ name ++ "`"

end FramedTree
