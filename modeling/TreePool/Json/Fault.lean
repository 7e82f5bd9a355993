import TreePool.Text.Quoted
import TreePool.Text.Utf8

/-! # Faults in a JSON text

A reader refuses a text at a place, which it knows as what is left to read there and a number of
bytes beyond. The position in lines and columns is found afterwards from the whole text.
-/

namespace TreePool.Json

/-- What stands where something else was expected. -/
inductive Found where
  | null
  | boolean (value : Bool)
  | integer (value : Int)
  /-- A number with a fraction or an exponent, or too large for an integer, as it is shown. -/
  | floating (text : List Char)
  | string (value : List Char)
  | sequence
  | map
deriving DecidableEq, Repr

def Found.describe : Found → String
  | .null => "null"
  | .boolean value => "boolean `" ++ toString value ++ "`"
  | .integer value => "integer `" ++ toString value ++ "`"
  | .floating text => "floating point `" ++ String.ofList text ++ "`"
  | .string value => "string " ++ String.ofList (Text.quoted value)
  | .sequence => "sequence"
  | .map => "map"

inductive Expected where
  | integer32
  | string
  | sequence
  | struct (name : String)
deriving DecidableEq, Repr

def Expected.describe : Expected → String
  | .integer32 => "i32"
  | .string => "a string"
  | .sequence => "a sequence"
  | .struct name => "struct " ++ name

inductive Reason where
  | endInValue
  | endInString
  | endInList
  | endInObject
  | wantsColon
  | wantsCommaOrBracket
  | wantsCommaOrBrace
  | wantsWord
  | wantsValue
  | invalidEscape
  | invalidNumber
  | numberOutOfRange
  | controlCharacter
  | keyIsNoString
  | loneSurrogate
  | brokenPair
  | trailingComma
  | trailingCharacters
  | invalidType (found : Found) (expected : Expected)
  | invalidValue (found : Found) (expected : Expected)
  /-- A sequence too short for a struct with the given number of fields. -/
  | tooShort (length : Nat) (expected : Expected) (fields : Nat)
  | missingField (name : String)
  | duplicateField (name : String)
deriving DecidableEq, Repr

def Reason.message : Reason → String
  | .endInValue => "EOF while parsing a value"
  | .endInString => "EOF while parsing a string"
  | .endInList => "EOF while parsing a list"
  | .endInObject => "EOF while parsing an object"
  | .wantsColon => "expected `:`"
  | .wantsCommaOrBracket => "expected `,` or `]`"
  | .wantsCommaOrBrace => "expected `,` or `\x7d`"
  | .wantsWord => "expected ident"
  | .wantsValue => "expected value"
  | .invalidEscape => "invalid escape"
  | .invalidNumber => "invalid number"
  | .numberOutOfRange => "number out of range"
  | .controlCharacter => "control character (\\u0000-\\u001F) found while parsing a string"
  | .keyIsNoString => "key must be a string"
  | .loneSurrogate => "lone leading surrogate in hex escape"
  | .brokenPair => "unexpected end of hex escape"
  | .trailingComma => "trailing comma"
  | .trailingCharacters => "trailing characters"
  | .invalidType found expected =>
    "invalid type: " ++ found.describe ++ ", expected " ++ expected.describe
  | .invalidValue found expected =>
    "invalid value: " ++ found.describe ++ ", expected " ++ expected.describe
  | .tooShort length expected fields =>
    "invalid length " ++ toString length ++ ", expected " ++ expected.describe ++ " with " ++
      toString fields ++ " elements"
  | .missingField name => "missing field `" ++ name ++ "`"
  | .duplicateField name => "duplicate field `" ++ name ++ "`"

/-- A refusal, `ahead` bytes into what is left of the text. -/
structure Fault where
  reason : Reason
  left : List Char
  ahead : Nat
deriving DecidableEq, Repr

/-- Lines count from one; columns count the bytes of the line before the place. -/
structure Position where
  line : Nat
  column : Nat
deriving DecidableEq, Repr

/-- The position at the end of some bytes. -/
def Position.after (bytes : Bytes) : Position :=
  let newline : UInt8 := 10
  { line := 1 + bytes.count newline
    column := (bytes.reverse.takeWhile (· ≠ newline)).length }

structure Error where
  reason : Reason
  position : Position
deriving DecidableEq, Repr

/-- The end of the text is as far ahead as a place can be. -/
def Fault.locate (fault : Fault) (text : List Char) : Error :=
  let bytes := Text.encode text
  let index := bytes.length - (Text.encode fault.left).length + fault.ahead
  ⟨fault.reason, .after (bytes.take index)⟩

def Error.message (error : Error) : String :=
  error.reason.message ++ " at line " ++ toString error.position.line ++
    " column " ++ toString error.position.column

/-- Reads a part of a text: a value, and what is left behind it. -/
abbrev Reader (α : Type) := List Char → Except Fault (α × List Char)

/-- Refuses a text at the place reached. -/
def refuse {α : Type} (reason : Reason) (left : List Char) : Except Fault α :=
  .error ⟨reason, left, 0⟩

def refuseNext {α : Type} (reason : Reason) (left : List Char) : Except Fault α :=
  .error ⟨reason, left, 1⟩

end TreePool.Json
