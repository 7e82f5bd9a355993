import TreePool.Text.Unprintable

/-! # Quoted text

Text inside a message stands between double quotes. A quote, a backslash and the common controls
are written with a backslash, and a character that would not be seen is written by its number.
-/

namespace TreePool.Text

/-- The lowercase hexadecimal digits of a number, without leading zeros. -/
def hex (n : Nat) : List Char := Nat.toDigits 16 n

def quotedChar (c : Char) : List Char :=
  match c with
  | '\x00' => ['\\', '0']
  | '\t' => ['\\', 't']
  | '\n' => ['\\', 'n']
  | '\r' => ['\\', 'r']
  | '"' => ['\\', '"']
  | '\\' => ['\\', '\\']
  | c => if isUnprintable c then ['\\', 'u', '\x7b'] ++ hex c.toNat ++ ['\x7d'] else [c]

def quoted (text : List Char) : List Char :=
  '"' :: (text.flatMap quotedChar ++ ['"'])

example : quoted "a\"b\n\u200B".toList = "\"a\\\"b\\n\\u\x7b200b\x7d\"".toList := by
  decide +kernel

end TreePool.Text
