import TreePool.Text.Utf8

/-! # Paths

A path is a byte list in which a slash separates names. Joining and taking the parent are lexical:
they look at the bytes alone, never at a file system. Reading a path as text is strict, and
displaying it is lenient.
-/

namespace TreePool

abbrev Name := Bytes

structure Path where
  bytes : Bytes
deriving DecidableEq, Repr

namespace Path

def slash : UInt8 := 47

def dot : UInt8 := 46

/-- The name of a directory inside itself. -/
def here : Name := [dot]

/-- The name of the parent of a directory inside it. -/
def above : Name := [dot, dot]

def ofString (text : String) : Path := ⟨Bytes.ofString text⟩

def length (path : Path) : Nat := path.bytes.length

def isEmpty (path : Path) : Bool := path.bytes.isEmpty

def isAbsolute (path : Path) : Bool := path.bytes.head? == some slash

def endsInSlash (path : Path) : Bool := path.bytes.getLast? == some slash

def text? (path : Path) : Option (List Char) := Text.decode? path.bytes

def display (path : Path) : List Char := Text.decodeLossy path.bytes

/-- The parts of a byte list between its slashes, empty ones included. -/
def split : Bytes → List Bytes
  | [] => [[]]
  | b :: rest =>
    if b = slash then [] :: split rest
    else
      match split rest with
      | [] => [[b]]
      | part :: parts => (b :: part) :: parts

/-- Joins parts with one slash between neighbours. -/
def unsplit (parts : List Bytes) : Bytes := [slash].intercalate parts

theorem split_ne_nil (bytes : Bytes) : split bytes ≠ [] := by
  cases bytes with
  | nil => simp [split]
  | cons b rest =>
    by_cases h : b = slash
    · simp [split, h]
    · cases hr : split rest <;> simp [split, h, hr]

@[simp] theorem unsplit_split (bytes : Bytes) : unsplit (split bytes) = bytes := by
  induction bytes with
  | nil => rfl
  | cons b rest ih =>
    obtain ⟨part, parts, hr⟩ := List.exists_cons_of_ne_nil (split_ne_nil rest)
    rw [hr] at ih
    by_cases h : b = slash
    · simpa [split, h, hr, unsplit, List.intercalate, List.intersperse] using ih
    · cases parts <;>
        simpa [split, h, hr, unsplit, List.intercalate, List.intersperse] using ih

/-- The names a path goes through. A slash at the end asks for a directory, which is one more
step to the directory itself. -/
def names (path : Path) : List Name :=
  (split path.bytes).filter (· ≠ []) ++ (if path.endsInSlash then [here] else [])

/-- The path without the slashes at its end. -/
def trimEnd (path : Path) : Path :=
  ⟨(path.bytes.reverse.dropWhile (· = slash)).reverse⟩

/-- An absolute path replaces the base; any other is appended, after a slash unless the base is
empty or ends in one. -/
def join (base path : Path) : Path :=
  if path.isAbsolute then path
  else if base.isEmpty || base.endsInSlash then ⟨base.bytes ++ path.bytes⟩
  else ⟨base.bytes ++ slash :: path.bytes⟩

/-- The path of an entry of the directory with this path. -/
def child (directory : Path) (name : Name) : Path := directory.join ⟨name⟩

/-- The path reached by going through the given names, relative to where it is read. -/
def relative (names : List Name) : Path := ⟨unsplit names⟩

/-- The leading byte that stands for the root or for the directory itself. -/
def anchor (path : Path) : Bytes :=
  match path.bytes with
  | [] => []
  | [b] => if b = slash || b = dot then [b] else []
  | b :: c :: _ => if b = slash || (b = dot && c = slash) then [b] else []

/-- Drops parts that lead nowhere from the end. -/
def trimParts (parts : List Bytes) : List Bytes :=
  (parts.reverse.dropWhile fun part => part = [] || part = here).reverse

/-- The path without its last name; parts that lead nowhere are no names. -/
def parent? (path : Path) : Option Path :=
  let body := path.bytes.drop path.anchor.length
  match (trimParts (split body)).reverse with
  | _ :: front => some ⟨path.anchor ++ unsplit (trimParts front.reverse)⟩
  | [] => if path.anchor = here then some ⟨[]⟩ else none

example : (ofString "a//b/./c/.").parent? = some (ofString "a//b") := by decide +kernel

example : (ofString "./a").parent? = some (ofString ".") := by decide +kernel

example : (ofString "//a").parent? = some (ofString "/") ∧ (ofString "/").parent? = none := by
  decide +kernel

end Path

end TreePool
