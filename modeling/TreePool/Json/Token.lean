import TreePool.Json.Fault
import TreePool.Decimal.Double
import TreePool.Ranges

/-! # Tokens of a JSON text

Blanks, strings and numbers. Strings and numbers are read in two ways: for their value, and merely
to pass over them. Passing over is the more tolerant way, as it does not ask what character an
escape stands for or how large a number is.
-/

namespace TreePool.Json

def isBlank (c : Char) : Bool := c = ' ' || c = '\n' || c = '\t' || c = '\r'

def skipBlanks (text : List Char) : List Char := text.dropWhile isBlank

def readWord : List Char → List Char → Except Fault (List Char)
  | [], text => .ok text
  | _ :: _, [] => refuse .endInValue []
  | expected :: word, c :: rest =>
    if c = expected then readWord word rest else refuseNext .wantsWord (c :: rest)

/-! ## Strings -/

def hexDigit? (c : Char) : Option Nat :=
  if '0' ≤ c ∧ c ≤ '9' then some (c.toNat - '0'.toNat)
  else if 'a' ≤ c ∧ c ≤ 'f' then some (c.toNat - 'a'.toNat + 10)
  else if 'A' ≤ c ∧ c ≤ 'F' then some (c.toNat - 'A'.toNat + 10)
  else none

def readUnit (text : List Char) : Except Fault Nat :=
  let four := text.take 4
  if (Text.encode four).length < 4 then refuse .endInString []
  else
    match four.mapM hexDigit? with
    | some digits => .ok (digits.foldl (fun n digit => n * 16 + digit) 0)
    | none => .error ⟨.invalidEscape, text, 4⟩

def isHighSurrogate (unit : Nat) : Bool := 0xD800 ≤ unit && unit ≤ 0xDBFF

def isLowSurrogate (unit : Nat) : Bool := 0xDC00 ≤ unit && unit ≤ 0xDFFF

def pairedChar (high low : Nat) : Char :=
  Char.ofNat ((high - 0xD800) * 0x400 + (low - 0xDC00) + 0x10000)

/-- The character of the numeric escape whose digits start a text, and their count together with
all that belongs to the escape. -/
def readNumericEscape (text : List Char) : Except Fault (Char × Nat) := do
  let unit ← readUnit text
  if isLowSurrogate unit then refuse .loneSurrogate (text.drop 4)
  else if isHighSurrogate unit then
    match text.drop 4 with
    | [] => refuse .endInString []
    | '\\' :: [] => refuse .endInString []
    | '\\' :: 'u' :: rest =>
      let low ← readUnit rest
      if isLowSurrogate low then .ok (pairedChar unit low, 10)
      else refuse .loneSurrogate (rest.drop 4)
    | '\\' :: other => refuseNext .brokenPair other
    | other => refuseNext .brokenPair other
  else .ok (Char.ofNat unit, 4)

def simpleEscape? : Char → Option Char
  | '"' => some '"'
  | '\\' => some '\\'
  | '/' => some '/'
  | 'b' => some '\x08'
  | 'f' => some '\x0C'
  | 'n' => some '\n'
  | 'r' => some '\r'
  | 't' => some '\t'
  | _ => none

/-- The character of the escape that goes on, after its backslash, with this text, and the number
of characters that it takes there. -/
def readEscape : List Char → Except Fault (Char × Nat)
  | [] => refuse .endInString []
  | 'u' :: rest => do
    let (char, taken) ← readNumericEscape rest
    .ok (char, taken + 1)
  | c :: rest =>
    match simpleEscape? c with
    | some char => .ok (char, 1)
    | none => refuseNext .invalidEscape (c :: rest)

/-- Reads a string after its opening quote. The count says how many characters belong to the last
escape, `done` holds the characters read, last first. -/
def readStringFrom (done : List Char) : Nat → Reader (List Char)
  | _, [] => refuse .endInString []
  | taken + 1, _ :: rest => readStringFrom done taken rest
  | 0, c :: rest =>
    if c = '"' then .ok (done.reverse, rest)
    else if c = '\\' then
      match readEscape rest with
      | .ok (char, taken) => readStringFrom (char :: done) taken rest
      | .error fault => .error fault
    else if c < ' ' then refuse .controlCharacter rest
    else readStringFrom (c :: done) 0 rest

def readString : Reader (List Char) := readStringFrom [] 0

/-- The number of characters that an escape takes after its backslash. -/
def skipEscape : List Char → Except Fault Nat
  | [] => refuse .endInString []
  | 'u' :: rest => do
    let _ ← readUnit rest
    .ok 5
  | c :: rest => if (simpleEscape? c).isSome then .ok 1 else refuseNext .invalidEscape (c :: rest)

/-- Passes over a string after its opening quote. -/
def skipStringFrom : Nat → List Char → Except Fault (List Char)
  | _, [] => refuse .endInString []
  | taken + 1, _ :: rest => skipStringFrom taken rest
  | 0, c :: rest =>
    if c = '"' then .ok rest
    else if c = '\\' then
      match skipEscape rest with
      | .ok taken => skipStringFrom taken rest
      | .error fault => .error fault
    else if c < ' ' then refuse .controlCharacter (c :: rest)
    else skipStringFrom 0 rest

def skipString (text : List Char) : Except Fault (List Char) := skipStringFrom 0 text

/-! ## Numbers -/

def isDigit (c : Char) : Bool := '0' ≤ c && c ≤ '9'

def digitValue (c : Char) : Nat := c.toNat - '0'.toNat

def startsExponent : List Char → Bool
  | c :: _ => c = 'e' || c = 'E'
  | [] => false

/-- The largest significand that is kept exactly. -/
def significandLimit : Nat := wordCount - 1

/-- Appends digits to a significand while it stays within the limit; the second part counts the
digits that are left out. -/
def absorb (significand : Nat) : List Char → Nat × Nat
  | [] => (significand, 0)
  | digit :: digits =>
    let longer := significand * 10 + digitValue digit
    if longer ≤ significandLimit then absorb longer digits
    else (significand, digits.length + 1)

inductive Number where
  | integer (value : Int)
  | floating (value : Float)

def Number.found : Number → Found
  | .integer value => .integer value
  | .floating value => .floating (Decimal.Parts.ofFloat value).text

/-- The power of ten by which one step of `scale` divides. -/
def scaleStep : Nat := 308

/-- Multiplies by a power of ten; `none` when the result is too large. A very small factor is
reached in several steps. -/
def scale : Nat → Float → Int → Option Float
  | 0, x, _ => some x
  | steps + 1, x, exponent =>
    if exponent.natAbs ≤ scaleStep then
      let power := Float.ofScientific 1 false exponent.natAbs
      if 0 ≤ exponent then
        let product := x * power
        if product.isInf then none else some product
      else some (x / power)
    else if x == 0 then some x
    else if 0 ≤ exponent then none
    else scale steps (x / Float.ofScientific 1 false scaleStep) (exponent + scaleStep)

def floatOf (negative : Bool) (significand : Nat) (exponent : Int) (left : List Char) :
    Except Fault (Number × List Char) :=
  match scale 8 significand.toUInt64.toFloat exponent with
  | some x => .ok (.floating (if negative then -x else x), left)
  | none => refuse .numberOutOfRange left

def exponentLimit : Nat := int32Max

/-- The digits of an exponent, up to the one with which it gets too large. -/
def readExponentDigits (exponent : Nat) : List Char → Except (List Char) (Nat × List Char)
  | [] => .ok (exponent, [])
  | c :: rest =>
    if isDigit c then
      let longer := exponent * 10 + digitValue c
      if longer ≤ exponentLimit then readExponentDigits longer rest else .error rest
    else .ok (exponent, c :: rest)

def readExponent (negative : Bool) (significand : Nat) (exponent : Int) (text : List Char) :
    Except Fault (Number × List Char) :=
  let (down, digits) : Bool × List Char :=
    match text with
    | '+' :: rest => (false, rest)
    | '-' :: rest => (true, rest)
    | _ => (false, text)
  match digits with
  | [] => refuse .endInValue []
  | c :: _ =>
    if !isDigit c then refuseNext .invalidNumber digits
    else
      match readExponentDigits 0 digits with
      | .ok (power, rest) =>
        floatOf negative significand (if down then exponent - power else exponent + power) rest
      | .error rest =>
        if significand ≠ 0 ∧ !down then refuse .numberOutOfRange rest
        else .ok (.floating (if negative then -0.0 else 0.0), rest.dropWhile isDigit)

def readScale (negative : Bool) (significand : Nat) (exponent : Int) (text : List Char) :
    Except Fault (Number × List Char) :=
  if startsExponent text then readExponent negative significand exponent text.tail
  else floatOf negative significand exponent text

def readFraction (negative : Bool) (significand : Nat) (exponent : Int) (text : List Char) :
    Except Fault (Number × List Char) :=
  let digits := text.takeWhile isDigit
  let rest := text.dropWhile isDigit
  if digits.isEmpty then
    if text.isEmpty then refuse .endInValue [] else refuseNext .invalidNumber text
  else
    let (significand, left) := absorb significand digits
    readScale negative significand (exponent - (digits.length - left : Nat)) rest

/-- The whole number of a significand; a negative one may not be zero or below `-2 ^ 63`. -/
def wholeNumber (negative : Bool) (significand : Nat) : Number :=
  if !negative then .integer significand
  else if significand = 0 ∨ wordCount / 2 < significand then
    .floating (-significand.toUInt64.toFloat)
  else .integer (-significand)

/-- Reads a number after its sign. -/
def readNumber (negative : Bool) (text : List Char) : Except Fault (Number × List Char) :=
  match text with
  | [] => refuse .endInValue []
  | c :: next =>
    if !isDigit c then refuseNext .invalidNumber text
    else
      let digits := if c = '0' then [c] else text.takeWhile isDigit
      let rest := text.drop digits.length
      if c = '0' ∧ (next.head?.map isDigit).getD false then refuseNext .invalidNumber next
      else
        let (significand, left) := absorb 0 digits
        match rest with
        | '.' :: fraction => readFraction negative significand left fraction
        | _ =>
          if left = 0 ∧ !startsExponent rest then .ok (wholeNumber negative significand, rest)
          else readScale negative significand left rest

def skipExponent (text : List Char) : Except Fault (List Char) :=
  let digits :=
    match text with
    | '+' :: rest => rest
    | '-' :: rest => rest
    | _ => text
  if (digits.head?.map isDigit).getD false then .ok (digits.dropWhile isDigit)
  else refuseNext .invalidNumber digits

def skipFraction (text : List Char) : Except Fault (List Char) :=
  let rest := text.dropWhile isDigit
  if (text.takeWhile isDigit).isEmpty then refuseNext .invalidNumber text
  else if startsExponent rest then skipExponent rest.tail
  else .ok rest

/-- Passes over a number after its sign. -/
def skipNumber (text : List Char) : Except Fault (List Char) :=
  match text with
  | [] => refuse .invalidNumber []
  | c :: next =>
    if !isDigit c then refuseNext .invalidNumber text
    else if c = '0' ∧ (next.head?.map isDigit).getD false then refuseNext .invalidNumber next
    else
      match (if c = '0' then next else next.dropWhile isDigit) with
      | '.' :: fraction => skipFraction fraction
      | rest => if startsExponent rest then skipExponent rest.tail else .ok rest

end TreePool.Json
