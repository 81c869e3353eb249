import Lox.Decimal.Shortest
/-!
# Numbers as 64-bit integers

The bitwise operators read their operands as 64-bit signed integers. A float is such an integer
when it is whole and lies in `[-2 ^ 63, 2 ^ 63)`; NaN, the infinities, fractions and larger
magnitudes are not. The integer is read exactly from the float's binary form.

`&`, `|` and `^` act on the two's complement bits, `<<` shifts them left and drops what leaves
the 64 bits, and `>>` shifts right keeping the sign, which is division by a power of two rounded
down. Shift amounts lie in `0 … 63`. Results go back to the nearest float.
-/

namespace Lox.Number

/-- The integer a float stands for, if it is whole and within the 64-bit signed range. -/
def toInt64? (x : Float) : Option Int :=
  if x.isNaN || x.isInf then none
  else
    let b := Binary.ofBits x.toBits
    let magnitude? : Option Nat :=
      if 0 ≤ b.exponent then some (b.mantissa * Nat.pow 2 b.exponent.toNat)
      else if b.mantissa % Nat.pow 2 (-b.exponent).toNat = 0 then
        some (b.mantissa / Nat.pow 2 (-b.exponent).toNat)
      else none
    match magnitude? with
    | none => none
    | some n =>
      let v : Int := if x.toBits.toNat ≥ Nat.pow 2 63 then -(n : Int) else n
      if -Int.pow 2 63 ≤ v ∧ v < Int.pow 2 63 then some v else none

/-- The bits of a 64-bit integer. -/
def bits (v : Int) : BitVec 64 := BitVec.ofInt 64 v

def bitAnd (a b : Int) : Int := (bits a &&& bits b).toInt

def bitOr (a b : Int) : Int := (bits a ||| bits b).toInt

def bitXor (a b : Int) : Int := (bits a ^^^ bits b).toInt

/-- Shift left by `n < 64`, keeping the low 64 bits. -/
def shiftLeft (a : Int) (n : Nat) : Int := (bits a <<< n).toInt

/-- Shift right by `n`, keeping the sign: `⌊a / 2 ^ n⌋`. -/
def shiftRight (a : Int) (n : Nat) : Int := a >>> n

/-- A shift amount: an integer in `0 … 63`. -/
def shiftAmount? (n : Int) : Option Nat :=
  if 0 ≤ n ∧ n < 64 then some n.toNat else none

end Lox.Number
