import Lox.Decimal.Shortest
/-!
# The remainder of floats

`Number.remainder x y` is `x - trunc (x / y) * y`, the remainder of division rounded toward
zero, with the sign of `x`. It is always exactly representable, so it is computed exactly from
the two floats' binary forms `m · 2 ^ e`: over the smaller exponent both are whole numbers,
and the remainder of those is the answer's mantissa.

A NaN operand, an infinite dividend or a zero divisor give NaN; an infinite divisor gives the
dividend back.
-/

namespace Lox.Number

/-- The float of `(-1) ^ sign · m · 2 ^ e` for `0 < m < 2 ^ 53` and `-1074 ≤ e`, when that
value is representable: its 64 bits are assembled directly. -/
def ofExactBinary (negative : Bool) (m : Nat) (e : Int) : Float :=
  let sign : Nat := if negative then Nat.pow 2 63 else 0
  -- shift the mantissa up to 53 bits
  let shift := 53 - Nat.log2 m - 1
  let top := m * Nat.pow 2 shift
  let biased : Int := e - shift + 1075
  if 0 < biased then
    Float.ofBits (UInt64.ofNat (sign + biased.toNat * Nat.pow 2 52 + (top - Nat.pow 2 52)))
  else
    Float.ofBits (UInt64.ofNat (sign + m * Nat.pow 2 (e + 1074).toNat))

/-- The NaN that undefined operations give. -/
def nan : Float := 0.0 / 0.0

/-- The remainder of truncated division, computed exactly. -/
def remainder (x y : Float) : Float :=
  if x.isNaN || y.isNaN || x.isInf then nan
  else if y.isInf then x
  else if y == 0 then nan
  else if x == 0 then x
  else
    let a := Binary.ofBits x.toBits
    let b := Binary.ofBits y.toBits
    let e := min a.exponent b.exponent
    let r :=
      (a.mantissa * Nat.pow 2 (a.exponent - e).toNat) % (b.mantissa * Nat.pow 2 (b.exponent - e).toNat)
    if r = 0 then (if x.toBits.toNat ≥ Nat.pow 2 63 then -0.0 else 0.0)
    else ofExactBinary (x.toBits.toNat ≥ Nat.pow 2 63) r e

end Lox.Number
