/-!
# Shortest decimal digits of a binary float

A positive finite float `m · 2 ^ q` stands for every real that rounds to it: the interval
between the midpoints to its two neighbouring floats, ends included when `m` is even.
`Decimal.shortest` writes such a float with the fewest significant digits that fall inside that
interval and, of two such numbers, with the nearer one; an exact tie goes up.

The search looks at the grids of numbers with `1, 2, …, 17` significant digits and, on each, at
the two grid points next to the value. The first grid with a point inside the interval wins:
if any `k`-digit number lies in the interval, one of the two neighbours of the value does too,
since the interval is connected and contains the value. All arithmetic is exact, on `Nat`.
-/

namespace Lox

/-- A decimal number `digits · 10 ^ exponent`. -/
structure Decimal where
  digits : Nat
  exponent : Int
  deriving Repr, DecidableEq

namespace Decimal

/-- The number of decimal digits of `n`, which is zero for zero. -/
def digitCount (n : Nat) : Nat :=
  if n = 0 then 0 else digitCount (n / 10) + 1
termination_by n
decreasing_by omega

/-- Drop trailing zeros of the digits, raising the exponent; zero stays as it is. -/
def normalize (digits : Nat) (exponent : Int) : Decimal :=
  if digits ≠ 0 ∧ digits % 10 = 0 then normalize (digits / 10) (exponent + 1)
  else ⟨digits, exponent⟩
termination_by digits
decreasing_by omega

/-- Compare `d · 10 ^ s` with the fraction `num / den` (for `den > 0`). -/
def compareScaled (d : Nat) (s : Int) (num den : Nat) : Ordering :=
  if 0 ≤ s then compare (d * Nat.pow 10 s.toNat * den) num
  else compare (d * den) (num * Nat.pow 10 (-s).toNat)

/-- `⌊(num / den) / 10 ^ s⌋`. -/
def floorScaled (num den : Nat) (s : Int) : Nat :=
  if 0 ≤ s then num / (den * Nat.pow 10 s.toNat) else num * Nat.pow 10 (-s).toNat / den

/-- The exponent `e` with `10 ^ e ≤ num / den < 10 ^ (e + 1)`, for positive `num` and `den`. -/
def decimalExponent (num den : Nat) : Int :=
  if den ≤ num then (digitCount (num / den) : Int) - 1
  else -(digitCount ((den - 1) / num) : Int)

end Decimal

/-- A positive finite float as `mantissa · 2 ^ exponent`. -/
structure Binary where
  mantissa : Nat
  exponent : Int
  /-- The float is a power of two above the smallest normal one, so the float below it lies
  half as far away as the float above it. -/
  narrowBelow : Bool
  deriving Repr, DecidableEq

namespace Binary

/-- The magnitude of a float with the given bits; its value is meaningful when the exponent
field is not all ones. -/
def ofBits (bits : UInt64) : Binary :=
  let n := bits.toNat
  let fraction : Nat := n % Nat.pow 2 52
  let biased : Nat := n / Nat.pow 2 52 % Nat.pow 2 11
  if biased = 0 then ⟨fraction, -1074, false⟩
  else ⟨fraction + Nat.pow 2 52, (biased : Int) - 1075, fraction = 0 ∧ 1 < biased⟩

/-- The rounding interval `low ≤ x ≤ high` of a float `x`, all three over the common
denominator `den`; `closed` tells whether the ends belong to it. -/
structure Interval where
  low : Nat
  value : Nat
  high : Nat
  den : Nat
  closed : Bool

/-- The reals that round to the float: halfway to each neighbour, in quarters of the last place. -/
def interval (b : Binary) : Interval :=
  let up := Nat.pow 2 b.exponent.toNat
  { low := (4 * b.mantissa - if b.narrowBelow then 1 else 2) * up
    value := 4 * b.mantissa * up
    high := (4 * b.mantissa + 2) * up
    den := 4 * Nat.pow 2 (-b.exponent).toNat
    closed := b.mantissa % 2 = 0 }

/-- Whether `d · 10 ^ s` lies in the interval. -/
def Interval.contains (i : Interval) (d : Nat) (s : Int) : Bool :=
  let above := match Decimal.compareScaled d s i.low i.den with
    | .gt => true
    | .eq => i.closed
    | .lt => false
  let below := match Decimal.compareScaled d s i.high i.den with
    | .lt => true
    | .eq => i.closed
    | .gt => false
  above && below

/-- On the grid of numbers `d · 10 ^ s`, the neighbour below the value or the one above it,
whichever lies in the interval; of two, the nearer one, and the upper one at a tie. -/
def Interval.pickOnGrid (i : Interval) (s : Int) : Option Nat :=
  let fl := Decimal.floorScaled i.value i.den s
  match i.contains fl s, i.contains (fl + 1) s with
  | true, true =>
    -- the midpoint `(2 fl + 1) · 10 ^ s` against `2 x`: at or below it, the upper one wins
    if Decimal.compareScaled (2 * fl + 1) s (2 * i.value) i.den = .gt then some fl else some (fl + 1)
  | true, false => some fl
  | false, true => some (fl + 1)
  | false, false => none

/-- Try the grids of `17 - fuel + 1, …, 17` significant digits for a value whose decimal
exponent is `e`; after the last grid, the nearest point of the 17-digit grid. -/
def Interval.search (i : Interval) (e : Int) : Nat → Decimal
  | 0 =>
    let s := e - 16
    Decimal.normalize (Decimal.floorScaled i.value i.den s) s
  | fuel + 1 =>
    let s := e + 1 - ((17 - fuel : Nat) : Int)
    match i.pickOnGrid s with
    | some d => Decimal.normalize d s
    | none => i.search e fuel

end Binary

namespace Decimal

/-- The shortest decimal that reads back as the float `b`, the nearest such at a tie in length. -/
def shortest (b : Binary) : Decimal :=
  let i := b.interval
  i.search (decimalExponent i.value i.den) 17

end Decimal

end Lox
