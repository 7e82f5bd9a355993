import TreePool.Decimal.Shortest

/-! # The text of a double

A finite double is shown with the fewest digits that read back. The text is positional while the
point lies near the digits and always has a fraction then; otherwise it is scientific, and the
exponent has a sign.
-/

namespace TreePool.Decimal

/-- A finite double as a signed binary fraction. -/
structure Parts where
  negative : Bool
  mantissa : Nat
  exponent : Int

def Parts.ofFloat (x : Float) : Parts :=
  let bits := x.toBits.toNat
  let fraction := bits % mantissaUnit
  let biased := bits / mantissaUnit % 0x800
  { negative := 0x8000000000000000 ≤ bits
    mantissa := if biased = 0 then fraction else mantissaUnit + fraction
    exponent := if biased = 0 then -1074 else Int.ofNat biased - 1075 }

/-- The point stands after this many digits at most in positional text. -/
def lastPoint : Int := 16

/-- The point stands this many digits before the first one at most in positional text. -/
def firstPoint : Int := -4

/-- Writes digits with the point after `point` of them. -/
def positional (digits : List Char) (point : Int) : List Char :=
  if digits.length ≤ point then
    digits ++ List.replicate (point.toNat - digits.length) '0' ++ ['.', '0']
  else if 0 < point then digits.take point.toNat ++ '.' :: digits.drop point.toNat
  else '0' :: '.' :: (List.replicate (-point).toNat '0' ++ digits)

/-- Writes digits with the point after the first of them. -/
def scientific (digits : List Char) (point : Int) : List Char :=
  let exponent := point - 1
  let mantissa :=
    match digits with
    | first :: second :: rest => first :: '.' :: second :: rest
    | few => few
  mantissa ++ 'e' :: (if exponent < 0 then '-' else '+') :: Nat.toDigits 10 exponent.natAbs

def Parts.text (parts : Parts) : List Char :=
  let sign := if parts.negative then ['-'] else []
  if parts.mantissa = 0 then sign ++ ['0', '.', '0']
  else
    let (digits, exponent) := shortest parts.mantissa parts.exponent
    let digits := Nat.toDigits 10 digits
    let point := digits.length + exponent
    sign ++
      if firstPoint ≤ point ∧ point ≤ lastPoint then positional digits point
      else scientific digits point

example : Parts.text ⟨false, 0x1999999999999A, -56⟩ = ['0', '.', '1'] := by decide +kernel

example : Parts.text ⟨true, mantissaUnit, 12⟩ = "-1.8446744073709552e+19".toList := by
  decide +kernel

end TreePool.Decimal
