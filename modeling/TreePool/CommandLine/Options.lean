import TreePool.Path
import TreePool.Ranges

/-! # Command line options

Two paths, three options with a value and a flag. Options may come anywhere before a lone double
dash, in a long form or in a short one that may be combined with others. An unknown option, a third
path, and a question for the version or for help end the reading where they stand; that a value is
missing, repeated or malformed is found at the end.
-/

namespace TreePool

structure Options where
  source : Path
  destination : Path
  /-- The number of workers; without workers files are copied one after the other. -/
  workers : Option Int := none
  /-- A file with worker settings. -/
  config : Option Path := none
  /-- The server whose settings count. -/
  server : Nat := 0
  /-- Whether every file is reported. -/
  verbose : Bool := false
deriving DecidableEq, Repr

namespace Options

/-- Why there are no options. -/
inductive Stop where
  | usage
  | version
  | help
deriving DecidableEq, Repr

inductive Valued where
  | workers
  | config
  | server
deriving DecidableEq, Repr

def dash : UInt8 := 45

def equalsSign : UInt8 := 61

/-- What has been read so far; an option without a value has none. -/
structure Draft where
  paths : List Bytes := []
  values : List (Valued × Option Bytes) := []
  verbose : Nat := 0

namespace Draft

def give (draft : Draft) (option : Valued) (value : Option Bytes) : Draft :=
  { draft with values := draft.values ++ [(option, value)] }

/-- An option that waited for its value does not get one. -/
def close (draft : Draft) : Option Valued → Draft
  | some option => draft.give option none
  | none => draft

def addPath (draft : Draft) (path : Bytes) : Except Stop Draft :=
  if draft.paths.length < 2 then .ok { draft with paths := draft.paths ++ [path] }
  else .error .usage

/-- The value of an option that is given at most once, or `none` when it is given wrongly. -/
def value? (draft : Draft) (option : Valued) : Option (Option Bytes) :=
  match draft.values.filter (·.1 = option) with
  | [] => some none
  | [(_, some value)] => some (some value)
  | _ => none

end Draft

/-- Reads options in short form, one letter each. The rest after the letter of an option with a
value is its value, and without any rest the option waits for the next argument. -/
def readShort (draft : Draft) : Bytes → Except Stop (Draft × Option Valued)
  | [] => .ok (draft, none)
  | letter :: rest =>
    let valued (option : Valued) : Except Stop (Draft × Option Valued) :=
      match rest with
      | [] => .ok (draft, some option)
      | b :: value =>
        .ok (draft.give option (some (if b = equalsSign then value else b :: value)), none)
    match Char.ofNat letter.toNat with
    | 'v' => readShort { draft with verbose := draft.verbose + 1 } rest
    | 'V' => .error .version
    | 'h' => .error .help
    | 'w' => valued .workers
    | 'c' => valued .config
    | 's' => valued .server
    | _ => .error .usage

/-- Splits an option in long form from the value that is attached to it. -/
def splitValue (option : Bytes) : Bytes × Option Bytes :=
  match option.dropWhile (· ≠ equalsSign) with
  | [] => (option, none)
  | _ :: value => (option.takeWhile (· ≠ equalsSign), some value)

def readLong (draft : Draft) (option : Bytes) : Except Stop (Draft × Option Valued) :=
  let (name, attached) := splitValue option
  let valued (option : Valued) : Except Stop (Draft × Option Valued) :=
    match attached with
    | some value => .ok (draft.give option (some value), none)
    | none => .ok (draft, some option)
  let flag (result : Except Stop (Draft × Option Valued)) :=
    if attached.isSome then .error .usage else result
  if name = Bytes.ofString "workers" then valued .workers
  else if name = Bytes.ofString "config" then valued .config
  else if name = Bytes.ofString "server" then valued .server
  else if name = Bytes.ofString "verbose" then
    flag (.ok ({ draft with verbose := draft.verbose + 1 }, none))
  else if name = Bytes.ofString "version" then flag (.error .version)
  else if name = Bytes.ofString "help" then flag (.error .help)
  else .error .usage

/-- Reads arguments; `waiting` is an option whose value may come next, and after a lone double
dash every argument is a path. -/
def readFrom (draft : Draft) (waiting : Option Valued) (pathsOnly : Bool) :
    List Bytes → Except Stop Draft
  | [] => .ok (draft.close waiting)
  | argument :: rest =>
    let path : Except Stop Draft :=
      match draft.addPath argument with
      | .ok draft => readFrom draft none pathsOnly rest
      | .error stop => .error stop
    if pathsOnly then path
    else
      match argument with
      | [] | [_] =>
        match waiting with
        | some option => readFrom (draft.give option (some argument)) none false rest
        | none => path
      | a :: b :: more =>
        if a ≠ dash then
          match waiting with
          | some option => readFrom (draft.give option (some argument)) none false rest
          | none => path
        else if b = dash ∧ more = [] then readFrom (draft.close waiting) none true rest
        else
          match (if b = dash then readLong (draft.close waiting) more
            else readShort (draft.close waiting) (b :: more)) with
          | .ok (draft, waiting) => readFrom draft waiting false rest
          | .error stop => .error stop

/-- The number that decimal digits stand for; there has to be one at least. -/
def readDigits (digits : List Char) : Option Nat :=
  if digits = [] ∨ digits.any (fun c => c < '0' || '9' < c) then none
  else some (digits.foldl (fun n c => n * 10 + (c.toNat - '0'.toNat)) 0)

/-- A decimal number with an optional sign that fits a signed word of 32 bits. -/
def readInteger (text : List Char) : Option Int := do
  let n : Int ← match text with
    | '-' :: digits => (readDigits digits).map fun n => -n
    | '+' :: digits => (readDigits digits).map fun n => n
    | digits => (readDigits digits).map fun n => n
  if isInt32 n then some n else none

/-- A decimal number, perhaps after a plus sign, that fits a word of 64 bits. -/
def readNatural (text : List Char) : Option Nat := do
  let n ← match text with
    | '+' :: digits => readDigits digits
    | digits => readDigits digits
  if n < wordCount then some n else none

/-- The value of an option as `read` reads it: `some none` when the option is not given. -/
def Draft.read? {α : Type} (draft : Draft) (option : Valued) (read : List Char → Option α) :
    Option (Option α) := do
  match ← draft.value? option with
  | none => some none
  | some value => (← (Text.decode? value).map read).map some

/-- A path argument has to be text. -/
def readPath (argument : Bytes) : Option Path := (Text.decode? argument).map fun _ => ⟨argument⟩

def Draft.options? (draft : Draft) : Option Options :=
  match draft.paths with
  | [source, destination] => do
    let source ← readPath source
    let destination ← readPath destination
    let workers ← draft.read? .workers readInteger
    let config ← draft.read? .config fun text => some ⟨Text.encode text⟩
    let server ← draft.read? .server readNatural
    if 1 < draft.verbose then none
    else
      some { source, destination, workers, config, server := server.getD 0,
             verbose := draft.verbose = 1 }
  | _ => none

def parse (arguments : List Bytes) : Except Stop Options :=
  match readFrom {} none false arguments with
  | .error stop => .error stop
  | .ok draft =>
    match draft.options? with
    | some options => .ok options
    | none => .error .usage

end Options

end TreePool
