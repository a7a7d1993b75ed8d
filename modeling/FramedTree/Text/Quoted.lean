import FramedTree.Text.Hidden

/-! # Quoted text

A text in double quotes, with quotes, backslashes and everything that cannot be seen spelled out. A
backslash in the quoted form always starts a spelling, so that the text can be told from it.
-/

namespace FramedTree.Text

def hexDigits (code : Nat) : List Char := Nat.toDigits 16 code

def escapeChar (c : Char) : List Char :=
  if c = '\x00' then ['\\', '0']
  else if c = '\t' then ['\\', 't']
  else if c = '\r' then ['\\', 'r']
  else if c = '\n' then ['\\', 'n']
  else if c = '"' then ['\\', '"']
  else if c = '\\' then ['\\', '\\']
  else if isHidden c then ['\\', 'u', '\x7b'] ++ hexDigits c.toNat ++ ['\x7d']
  else [c]

def quoted (text : String) : String :=
  "\"" ++ String.ofList (text.toList.flatMap escapeChar) ++ "\""

end FramedTree.Text
