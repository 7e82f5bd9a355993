import TreePool.Text.Quoted

/-! # Writing JSON

A value is written on one line without blanks, or over several lines with two blanks for each
level. In a string only what has to be escaped is.
-/

namespace TreePool.Json

inductive Value where
  | boolean (value : Bool)
  | integer (value : Int)
  | string (text : List Char)
  | list (items : List Value)
  | object (members : List (String × Value))
deriving Repr

/-- Two lowercase hexadecimal digits. -/
def hexByte (n : Nat) : List Char :=
  let digits := Text.hex n
  List.replicate (2 - digits.length) '0' ++ digits

def writeChar (c : Char) : List Char :=
  match c with
  | '"' => ['\\', '"']
  | '\\' => ['\\', '\\']
  | '\x08' => ['\\', 'b']
  | '\x0C' => ['\\', 'f']
  | '\n' => ['\\', 'n']
  | '\r' => ['\\', 'r']
  | '\t' => ['\\', 't']
  | c => if c < ' ' then ['\\', 'u', '0', '0'] ++ hexByte c.toNat else [c]

def writeString (text : List Char) : List Char := '"' :: (text.flatMap writeChar ++ ['"'])

def writeInteger (n : Int) : List Char :=
  if n < 0 then '-' :: Nat.toDigits 10 n.natAbs else Nat.toDigits 10 n.natAbs

namespace Value

mutual

def compact : Value → List Char
  | .boolean value => if value then ['t', 'r', 'u', 'e'] else ['f', 'a', 'l', 's', 'e']
  | .integer value => writeInteger value
  | .string text => writeString text
  | .list items => '[' :: (compactItems items ++ [']'])
  | .object members => '\x7b' :: (compactMembers members ++ ['\x7d'])

def compactItems : List Value → List Char
  | [] => []
  | [item] => compact item
  | item :: next :: rest => compact item ++ ',' :: compactItems (next :: rest)

def compactMembers : List (String × Value) → List Char
  | [] => []
  | [member] => compactMember member
  | member :: next :: rest => compactMember member ++ ',' :: compactMembers (next :: rest)

def compactMember : String × Value → List Char
  | (key, value) => writeString key.toList ++ ':' :: compact value

end

def newline (level : Nat) : List Char := '\n' :: List.replicate (2 * level) ' '

mutual

/-- Writes a value over several lines; the first one is at the given level. -/
def prettyAt (level : Nat) : Value → List Char
  | .list [] => ['[', ']']
  | .list (item :: items) =>
    '[' :: (prettyItems (level + 1) (item :: items) ++ newline level ++ [']'])
  | .object [] => ['\x7b', '\x7d']
  | .object (member :: members) =>
    '\x7b' :: (prettyMembers (level + 1) (member :: members) ++ newline level ++ ['\x7d'])
  | .boolean value => if value then ['t', 'r', 'u', 'e'] else ['f', 'a', 'l', 's', 'e']
  | .integer value => writeInteger value
  | .string text => writeString text

def prettyItems (level : Nat) : List Value → List Char
  | [] => []
  | [item] => newline level ++ prettyAt level item
  | item :: next :: rest =>
    newline level ++ prettyAt level item ++ ',' :: prettyItems level (next :: rest)

def prettyMembers (level : Nat) : List (String × Value) → List Char
  | [] => []
  | [member] => prettyMember level member
  | member :: next :: rest =>
    prettyMember level member ++ ',' :: prettyMembers level (next :: rest)

def prettyMember (level : Nat) : String × Value → List Char
  | (key, value) => newline level ++ writeString key.toList ++ ':' :: ' ' :: prettyAt level value

end

def pretty (value : Value) : List Char := prettyAt 0 value

end Value

end TreePool.Json
