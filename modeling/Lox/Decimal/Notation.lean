import Lox.Decimal.Shortest
/-!
# Writing a float in decimal

`Decimal.positional` writes a decimal with all its digits and no exponent; `Decimal.scientific`
writes one digit before the point and an exponent. A `Notation` says which of the two a float
gets, how the exponent is marked and how the values without digits are spelled;
`Notation.render` writes a float in it from its shortest decimal.

Lox writes a number in one of two notations, both from its shortest decimal.

* The literal text, used for number tokens and in printed syntax trees, is always positional:
  `1000000000000000000000`, `0.30000000000000004`, `-0`, `inf`, `NaN`.
* The display text, used by `print`, by string concatenation and for results, is the literal
  text below `1e21`; from there on it has an exponent after `E`, with at least one digit after
  the point: `1.0E21`, `-1.5E22`.
-/

namespace Lox

namespace Decimal

/-- The digits of a decimal as text, the empty text for zero digits. -/
def digitText (d : Decimal) : String :=
  if d.digits = 0 then "0" else String.ofList (Nat.toDigits 10 d.digits)

/-- All digits, padded with zeros to the point, with no exponent: `1200`, `0.0012`, `1.25`. -/
def positional (d : Decimal) : String :=
  let ds := d.digitText
  if 0 ≤ d.exponent then ds ++ String.ofList (List.replicate d.exponent.toNat '0')
  else
    -- how many digits stand before the point
    let before : Int := (ds.length : Int) + d.exponent
    if 0 < before then
      String.ofList (ds.toList.take before.toNat) ++ "." ++ String.ofList (ds.toList.drop before.toNat)
    else "0." ++ String.ofList (List.replicate (-before).toNat '0') ++ ds

/-- The exponent of the leading digit: `d` lies in `[10 ^ e, 10 ^ (e + 1))` for nonzero digits. -/
def leadingExponent (d : Decimal) : Int :=
  (digitCount d.digits : Int) - 1 + d.exponent

/-- One digit, then the others after a point if there are any, then `mark` and the exponent:
`1e21`, `1.5e-7`. With `pointAlways`, a lone digit is followed by `.0`. -/
def scientific (d : Decimal) (mark : String) (pointAlways : Bool) : String :=
  let ds := d.digitText.toList
  let rest := ds.drop 1
  let mantissa :=
    if rest.isEmpty then String.ofList (ds.take 1) ++ (if pointAlways then ".0" else "")
    else String.ofList (ds.take 1) ++ "." ++ String.ofList rest
  let e := if d.digits = 0 then 0 else d.leadingExponent
  mantissa ++ mark ++ toString e

end Decimal

/-- How a number is written out. -/
structure Notation where
  /-- Finite magnitudes of at least `10 ^ n` are written with an exponent; `none` writes every
  finite value positionally. -/
  scientificFrom : Option Nat
  /-- What separates the mantissa from the exponent. -/
  exponentMark : String
  /-- Whether a one-digit mantissa is written with `.0`. -/
  pointAlways : Bool
  nan : String
  infinity : String

namespace Notation

/-- Bit 63, the sign of a float. -/
def signBit (x : Float) : Bool := x.toBits.toNat ≥ Nat.pow 2 63

/-- A float in the notation: sign, then the shortest decimal of its magnitude. Negative zero
keeps its sign; a NaN has none. -/
def render (f : Notation) (x : Float) : String :=
  if x.isNaN then f.nan
  else
    let sign := if signBit x then "-" else ""
    if x.isInf then sign ++ f.infinity
    else
      let d := Decimal.shortest (Binary.ofBits x.toBits)
      let body := match f.scientificFrom with
        | some n => if d.digits ≠ 0 ∧ (n : Int) ≤ d.leadingExponent then
            d.scientific f.exponentMark f.pointAlways else d.positional
        | none => d.positional
      sign ++ body

end Notation

/-! ## The two texts of a number -/

namespace Number

/-- Every finite number positionally, without an exponent. -/
def literalNotation : Notation :=
  { scientificFrom := none, exponentMark := "e", pointAlways := false, nan := "NaN", infinity := "inf" }

/-- Positional below `1e21`, then a mantissa with a point and an exponent after `E`. -/
def displayNotation : Notation :=
  { literalNotation with scientificFrom := some 21, exponentMark := "E", pointAlways := true }

/-- The text of a number literal in tokens and syntax trees. -/
def literalText (x : Float) : String := literalNotation.render x

/-- The text of a number value when it is printed or joined to a string. -/
def displayText (x : Float) : String := displayNotation.render x

end Number

end Lox
