/-! # Bytes and text

Paths and file contents are byte lists; text is what a byte list reads as under UTF-8. The reader
cuts bytes into pieces: a character, or a longest run of bytes that begins a character and cannot
be completed. Strict reading wants every piece to be a character, lenient reading shows the
replacement character for each of the others.
-/

namespace TreePool

abbrev Bytes := List UInt8

namespace Text

structure Pending where
  /-- The number of bytes owed. -/
  owed : Nat
  low : UInt8
  high : UInt8
  value : Nat
deriving DecidableEq, Repr

/-- The effect of one byte that stands at the start of a character. -/
def first (b : UInt8) : List (Option Char) × Option Pending :=
  if b < 0x80 then ([some (Char.ofNat b.toNat)], none)
  else if b < 0xC2 then ([none], none)
  else if b < 0xE0 then ([], some ⟨1, 0x80, 0xBF, b.toNat - 0xC0⟩)
  else if b = 0xE0 then ([], some ⟨2, 0xA0, 0xBF, 0⟩)
  else if b = 0xED then ([], some ⟨2, 0x80, 0x9F, 0xD⟩)
  else if b < 0xF0 then ([], some ⟨2, 0x80, 0xBF, b.toNat - 0xE0⟩)
  else if b = 0xF0 then ([], some ⟨3, 0x90, 0xBF, 0⟩)
  else if b < 0xF4 then ([], some ⟨3, 0x80, 0xBF, b.toNat - 0xF0⟩)
  else if b = 0xF4 then ([], some ⟨3, 0x80, 0x8F, 4⟩)
  else ([none], none)

/-- The effect of one byte: a byte that does not continue the pending character ends it as an
ill-formed piece and starts afresh. -/
def feed (b : UInt8) : Option Pending → List (Option Char) × Option Pending
  | none => first b
  | some p =>
    if p.low ≤ b ∧ b ≤ p.high then
      let value := p.value * 64 + (b.toNat - 0x80)
      if p.owed ≤ 1 then ([some (Char.ofNat value)], none)
      else ([], some ⟨p.owed - 1, 0x80, 0xBF, value⟩)
    else
      let afresh := first b
      (none :: afresh.1, afresh.2)

/-- The pieces of a byte list, `none` for each that is no character. -/
def piecesFrom : Option Pending → Bytes → List (Option Char)
  | none, [] => []
  | some _, [] => [none]
  | pending, b :: rest =>
    let fed := feed b pending
    fed.1 ++ piecesFrom fed.2 rest

def pieces (bytes : Bytes) : List (Option Char) := piecesFrom none bytes

/-- The characters of a byte list that is well-formed throughout. -/
def decode? (bytes : Bytes) : Option (List Char) := (pieces bytes).mapM id

/-- The characters of a byte list, with U+FFFD for every ill-formed piece. -/
def decodeLossy (bytes : Bytes) : List Char := (pieces bytes).map (·.getD '\uFFFD')

def encode (text : List Char) : Bytes := text.flatMap String.utf8EncodeChar

@[simp] theorem encode_nil : encode [] = [] := rfl

@[simp] theorem encode_append (s t : List Char) : encode (s ++ t) = encode s ++ encode t := by
  simp [encode]

end Text

def Bytes.ofString (text : String) : Bytes := Text.encode text.toList

end TreePool
