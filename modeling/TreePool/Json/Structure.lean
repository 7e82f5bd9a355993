import TreePool.Json.Skip

/-! # Reading typed values

A struct may be written as an object, whose members come in any order, or as a sequence of its
fields. Unknown members are passed over, and a known one may come once.
-/

namespace TreePool.Json

/-- Refuses a value of the wrong type. A scalar is read first and may be faulty itself. -/
def refuseType {α : Type} (expected : Expected) (text : List Char) : Except Fault α := do
  let wrong (found : Found) (left : List Char) : Except Fault α :=
    refuse (.invalidType found expected) left
  match text with
  | 'n' :: rest => wrong .null (← readWord ['u', 'l', 'l'] rest)
  | 't' :: rest => wrong (.boolean true) (← readWord ['r', 'u', 'e'] rest)
  | 'f' :: rest => wrong (.boolean false) (← readWord ['a', 'l', 's', 'e'] rest)
  | '"' :: rest =>
    let (value, left) ← readString rest
    wrong (.string value) left
  | '-' :: rest =>
    let (number, left) ← readNumber true rest
    wrong number.found left
  | '[' :: _ => wrong .sequence text
  | '\x7b' :: _ => wrong .map text
  | c :: _ =>
    if isDigit c then
      let (number, left) ← readNumber false text
      wrong number.found left
    else refuseNext .wantsValue text
  | [] => refuseNext .endInValue []

def nextValue (text : List Char) : Except Fault (List Char) :=
  match skipBlanks text with
  | [] => refuseNext .endInValue []
  | text => .ok text

def readStringValue (text : List Char) : Except Fault (List Char × List Char) := do
  match ← nextValue text with
  | '"' :: rest => readString rest
  | text => refuseType .string text

def asInteger32 : Number × List Char → Except Fault (Int × List Char)
  | (.integer value, left) =>
    if isInt32 value then .ok (value, left)
    else refuse (.invalidValue (.integer value) .integer32) left
  | (number, left) => refuse (.invalidType number.found .integer32) left

def readInteger32 (text : List Char) : Except Fault (Int × List Char) := do
  match ← nextValue text with
  | '-' :: rest => asInteger32 (← readNumber true rest)
  | c :: rest =>
    if isDigit c then asInteger32 (← readNumber false (c :: rest))
    else refuseType .integer32 (c :: rest)
  | [] => refuseNext .endInValue []

/-! ## Sequences -/

/-- Whether a sequence has another element, and what is left: the element or the bracket. -/
def nextElement (first : Bool) (text : List Char) : Except Fault (Bool × List Char) :=
  match skipBlanks text with
  | [] => refuseNext .endInList []
  | c :: rest =>
    if c = ']' then .ok (false, c :: rest)
    else if first then .ok (true, c :: rest)
    else if c = ',' then
      match skipBlanks rest with
      | [] => refuseNext .endInValue []
      | ']' :: rest => refuseNext .trailingComma (']' :: rest)
      | rest => .ok (true, rest)
    else refuseNext .wantsCommaOrBracket (c :: rest)

def endSequence (text : List Char) : Except Fault (List Char) :=
  match skipBlanks text with
  | [] => refuseNext .endInList []
  | ']' :: rest => .ok rest
  | ',' :: rest =>
    match skipBlanks rest with
    | ']' :: rest => refuseNext .trailingComma (']' :: rest)
    | rest => refuseNext .trailingCharacters rest
  | text => refuseNext .trailingCharacters text

def readElements {α : Type} (read : Reader α) :
    Nat → Bool → List Char → Except Fault (List α × List Char)
  | 0, _, text => refuse .endInList text
  | fuel + 1, first, text => do
    let (more, text) ← nextElement first text
    if more then
      let (value, text) ← read text
      let (values, text) ← readElements read fuel false text
      .ok (value :: values, text)
    else .ok ([], text.tail)

def readSequence {α : Type} (read : Reader α) (text : List Char) :
    Except Fault (List α × List Char) := do
  match ← nextValue text with
  | '[' :: rest => readElements read (rest.length + 1) true rest
  | text => refuseType .sequence text

/-! ## Objects -/

/-- The key of the next member of an object, if there is one, and what is left behind the key or
the closing brace. -/
def nextKey (first : Bool) (text : List Char) : Except Fault (Option (List Char) × List Char) :=
  let key (rest : List Char) : Except Fault (Option (List Char) × List Char) := do
    let (key, rest) ← readString rest
    .ok (some key, rest)
  match skipBlanks text with
  | [] => refuseNext .endInObject []
  | c :: rest =>
    if c = '\x7d' then .ok (none, rest)
    else if first then
      if c = '"' then key rest else refuseNext .keyIsNoString (c :: rest)
    else if c = ',' then
      match skipBlanks rest with
      | [] => refuseNext .endInValue []
      | '"' :: rest => key rest
      | '\x7d' :: rest => refuseNext .trailingComma ('\x7d' :: rest)
      | rest => refuseNext .keyIsNoString rest
    else refuseNext .wantsCommaOrBrace (c :: rest)

/-- Reads the members of an object. `member` reads one, from behind its key, into a state. -/
def readMembers {σ : Type} (member : List Char → σ → Reader σ) :
    Nat → Bool → σ → List Char → Except Fault (σ × List Char)
  | 0, _, _, text => refuse .endInObject text
  | fuel + 1, first, state, text => do
    match ← nextKey first text with
    | (some key, text) =>
      let (state, text) ← member key state text
      readMembers member fuel false state text
    | (none, text) => .ok (state, text)

/-- Reads a member that may come once. The refusal of a second one stands behind the object's
closing brace if that follows the key, and before whatever else follows it. -/
def readOnce {α : Type} (name : String) (known : Option α) (read : Reader α)
    (text : List Char) : Except Fault (α × List Char) := do
  if known.isSome then
    match skipBlanks text with
    | '\x7d' :: rest => refuse (.duplicateField name) rest
    | rest => refuse (.duplicateField name) rest
  else read (← readColon text)

/-- Passes over a member that nobody asks for. -/
def skipMember (text : List Char) : Except Fault (List Char) := do
  skipValue (← readColon text)

/-- Reads a text that holds one value and nothing else but blanks. -/
def readWhole {α : Type} (read : Reader α) (text : List Char) : Except Error α :=
  let value : Except Fault α := do
    let (value, rest) ← read text
    match skipBlanks rest with
    | [] => .ok value
    | rest => refuseNext .trailingCharacters rest
  value.mapError (·.locate text)

end TreePool.Json
