/-! # The fewest digits that read back

A binary fraction `m * 2 ^ q` stands for all reals that round to it. Its shortest decimal is found
by trying coarser decimal grids first: on each grid only the two neighbours of the value can lie in
the interval, and the first grid with a hit gives the digits.
-/

namespace TreePool.Decimal

/-- A nonnegative fraction; the denominator is positive. -/
structure Fraction where
  num : Nat
  den : Nat

namespace Fraction

def ofPower (num : Nat) (base : Nat) (exponent : Int) : Fraction :=
  match exponent with
  | .ofNat e => ⟨num * Nat.pow base e, 1⟩
  | .negSucc e => ⟨num, Nat.pow base (e + 1)⟩

def le (a b : Fraction) : Bool := a.num * b.den ≤ b.num * a.den

def lt (a b : Fraction) : Bool := a.num * b.den < b.num * a.den

/-- The distance between two fractions. -/
def distance (a b : Fraction) : Fraction :=
  ⟨a.num * b.den - b.num * a.den + (b.num * a.den - a.num * b.den), a.den * b.den⟩

/-- The largest multiple of `10 ^ exponent` that is not above the fraction, counted in steps. -/
def steps (a : Fraction) (exponent : Int) : Nat :=
  match exponent with
  | .ofNat e => a.num / (a.den * Nat.pow 10 e)
  | .negSucc e => a.num * Nat.pow 10 (e + 1) / a.den

end Fraction

/-- A double that is not tiny has a mantissa of this size at least, and of less than twice it. -/
def mantissaUnit : Nat := 0x10000000000000

/-- A binary fraction `mantissa * 2 ^ exponent` with the reals that round to it. -/
structure Rounding where
  value : Fraction
  low : Fraction
  high : Fraction
  /-- Whether the ends of the interval round to the value too. -/
  closed : Bool

/-- The rounding interval of a double. Below a power of two the grid is twice as fine. -/
def Rounding.ofDouble (mantissa : Nat) (exponent : Int) : Rounding :=
  let finer := mantissa = mantissaUnit ∧ exponent ≠ -1074
  { value := .ofPower (4 * mantissa) 2 (exponent - 2)
    low := .ofPower (4 * mantissa - if finer then 1 else 2) 2 (exponent - 2)
    high := .ofPower (4 * mantissa + 2) 2 (exponent - 2)
    closed := mantissa % 2 = 0 }

def Rounding.holds (r : Rounding) (x : Fraction) : Bool :=
  if r.closed then r.low.le x && x.le r.high else r.low.lt x && x.lt r.high

/-- The multiple of `10 ^ exponent` nearest to the value, if one rounds to it; a tie goes to the
even count of steps. -/
def Rounding.onGrid? (r : Rounding) (exponent : Int) : Option Nat :=
  let below := r.value.steps exponent
  let near (n : Nat) := r.value.distance (.ofPower n 10 exponent)
  let fits (n : Nat) := r.holds (.ofPower n 10 exponent)
  match fits below, fits (below + 1) with
  | true, true =>
    if (near below).lt (near (below + 1)) then some below
    else if (near (below + 1)).lt (near below) then some (below + 1)
    else some (if below % 2 = 0 then below else below + 1)
  | true, false => some below
  | false, true => some (below + 1)
  | false, false => none

/-- Tries the grids from `10 ^ exponent` down. -/
def Rounding.search (r : Rounding) : Nat → Int → Nat × Int
  | 0, exponent => (r.value.steps exponent, exponent)
  | fuel + 1, exponent =>
    match r.onGrid? exponent with
    | some (n + 1) => (n + 1, exponent)
    | _ => r.search fuel (exponent - 1)

/-- Digits and decimal exponent of the shortest decimal of a positive double. No double is as
large as `10 ^ 309`, and none needs a grid finer than `10 ^ (-342)`. -/
def shortest (mantissa : Nat) (exponent : Int) : Nat × Int :=
  (Rounding.ofDouble mantissa exponent).search 652 309

example : shortest 0x1999999999999A (-56) = (1, -1) := by decide +kernel

example : shortest 1 (-1074) = (5, -324) := by decide +kernel

end TreePool.Decimal
