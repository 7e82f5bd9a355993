import TreePool.Json.Token

/-! # Passing over a value

A value that nobody asks for still has to be well formed. It is passed over with a stack of the
brackets that are open, so that no depth of nesting is too large.
-/

namespace TreePool.Json

inductive Bracket where
  | list
  | object
deriving DecidableEq, Repr

namespace Bracket

def closing : Bracket → Char
  | .list => ']'
  | .object => '\x7d'

def endReason : Bracket → Reason
  | .list => .endInList
  | .object => .endInObject

def commaReason : Bracket → Reason
  | .list => .wantsCommaOrBracket
  | .object => .wantsCommaOrBrace

end Bracket

/-- Reads the colon after a key. -/
def readColon (text : List Char) : Except Fault (List Char) :=
  match skipBlanks text with
  | [] => refuseNext .endInObject []
  | c :: rest => if c = ':' then .ok rest else refuseNext .wantsColon (c :: rest)

/-- Passes over what stands before a value: nothing in a list, a key and a colon in an object. -/
def skipKey (bracket : Bracket) (text : List Char) : Except Fault (List Char) :=
  match bracket with
  | .list => .ok text
  | .object =>
    match skipBlanks text with
    | [] => refuseNext .endInObject []
    | c :: rest =>
      if c = '"' then
        match skipString rest with
        | .ok rest => readColon rest
        | .error fault => .error fault
      else refuseNext .keyIsNoString (c :: rest)

/-- Goes on inside the innermost open bracket, with `afterValue` right behind a value and without
right behind the opening bracket. Answers the brackets that are still open, and what is left: the
next value, or all that follows when no bracket is open. -/
def closeBrackets (afterValue : Bool) : List Bracket → Reader (List Bracket)
  | [], text => .ok ([], text)
  | bracket :: outer, text =>
    match skipBlanks text with
    | [] => refuseNext bracket.endReason []
    | c :: rest =>
      if c = ',' ∧ afterValue then (skipKey bracket rest).map ((bracket :: outer, ·))
      else if c = bracket.closing then closeBrackets true outer rest
      else if afterValue then refuseNext bracket.commaReason (c :: rest)
      else (skipKey bracket (c :: rest)).map ((bracket :: outer, ·))

/-- Passes over a word, a number or a string that begins with the given character. -/
def skipScalar (c : Char) (rest : List Char) : Except Fault (List Char) :=
  match c with
  | 'n' => readWord ['u', 'l', 'l'] rest
  | 't' => readWord ['r', 'u', 'e'] rest
  | 'f' => readWord ['a', 'l', 's', 'e'] rest
  | '"' => skipString rest
  | '-' => skipNumber rest
  | c => if isDigit c then skipNumber (c :: rest) else refuseNext .wantsValue (c :: rest)

/-- Passes over a value and over all that follows it inside the open brackets. Every value is at
least one character, which bounds their number. -/
def skipOpen : Nat → List Bracket → List Char → Except Fault (List Char)
  | 0, _, text => refuse .endInValue text
  | fuel + 1, brackets, text =>
    match skipBlanks text with
    | [] => refuseNext .endInValue []
    | c :: rest =>
      let next : Except Fault (List Bracket × List Char) :=
        if c = '[' then closeBrackets false (.list :: brackets) rest
        else if c = '\x7b' then closeBrackets false (.object :: brackets) rest
        else
          match skipScalar c rest with
          | .ok rest => closeBrackets true brackets rest
          | .error fault => .error fault
      match next with
      | .ok ([], rest) => .ok rest
      | .ok (brackets, rest) => skipOpen fuel brackets rest
      | .error fault => .error fault

def skipValue (text : List Char) : Except Fault (List Char) :=
  skipOpen (text.length + 1) [] text

end TreePool.Json
