/-!
The fewest decimal digits that determine a binary floating-point number.

A double is `mantissa * 2 ^ exponent`, and the reals that round to it form an interval. Its
shortest decimal is the number of the interval that lies on the coarsest grid of powers of ten; of
two such numbers the nearer one, and of two equally near ones the larger.
-/

namespace FlowIR.Decimal

structure Digits where
  digits : Nat
  exponent : Int
deriving DecidableEq, Repr

/-- A positive number and the interval of the reals that round to it, as fractions over one
denominator. -/
structure Rounding where
  value : Nat
  low : Nat
  high : Nat
  den : Nat
  /-- Whether the ends of the interval round to the number as well. -/
  closed : Bool

namespace Rounding

/-- The interval of `mantissa * 2 ^ exponent`. Below a power of two the neighbours are twice as
dense, unless the exponent is the least one. -/
def ofBinary (mantissa : Nat) (exponent : Int) (denseBelow : Bool) : Rounding :=
  let scale := Nat.pow 2 (exponent - 2).toNat
  { value := 4 * mantissa * scale
    low := (4 * mantissa - if denseBelow then 1 else 2) * scale
    high := (4 * mantissa + 2) * scale
    den := Nat.pow 2 (2 - exponent).toNat
    closed := mantissa % 2 == 0 }

/-- The multiples of `10 ^ k` next to the value that lie in the interval, the chosen one first. -/
def onGrid (r : Rounding) (k : Int) : Option Nat :=
  let up := Nat.pow 10 (-k).toNat
  let unit := r.den * Nat.pow 10 k.toNat
  let below := r.value * up / unit
  let inside (d : Nat) : Bool :=
    if r.closed then r.low * up ≤ d * unit && d * unit ≤ r.high * up
    else r.low * up < d * unit && d * unit < r.high * up
  let nearerBelow := 2 * (r.value * up) < (2 * below + 1) * unit
  match inside below, inside (below + 1) with
  | true, true => some (if nearerBelow then below else below + 1)
  | true, false => some below
  | false, true => some (below + 1)
  | false, false => none

/-- An exponent of ten that is too large for the interval to hold a multiple of its power, or one
below. -/
def topExponent (r : Rounding) : Int :=
  ((r.value.log2 : Int) - (r.den.log2 : Int) + 1) * 30103 / 100000 + 2

/-- Looks for the coarsest grid from `10 ^ k` downwards. -/
def search (r : Rounding) : (fuel : Nat) → (k : Int) → Digits
  | 0, k => ⟨r.value * Nat.pow 10 (-k).toNat / (r.den * Nat.pow 10 k.toNat), k⟩
  | fuel + 1, k =>
    match r.onGrid k with
    | some d => ⟨d, k⟩
    | none => r.search fuel (k - 1)

/-- The shortest decimal. Seventeen digits always suffice. -/
def shortest (r : Rounding) : Digits :=
  r.search 24 r.topExponent

end Rounding

end FlowIR.Decimal
