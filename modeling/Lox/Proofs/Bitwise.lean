import Lox.Operators
import Mathlib.Data.Int.Bitwise
import Mathlib.Data.Rat.Floor
/-!
# The bitwise operators on 64-bit integers

`&`, `|`, `^`, `<<` and `>>` read both operands as 64-bit signed integers. A float stands for
such an integer when its value is whole and lies in `[-2 ^ 63, 2 ^ 63)` (`IsInt64`). The value
is taken from the float itself, through the unpacked form of its bit pattern (`value?`), so
NaN and the infinities have none, both zeros have the value 0, and nothing is saturated or cut
short: a float just below `2 ^ 63` or at `-2 ^ 63` is read as it is, `2 ^ 63` is refused.

The conversion in `Number.toInt64?` decodes the bit pattern by hand (`Binary.ofBits`); it agrees
with the unpacked form (`value?_eq`) and returns `i` exactly when the float stands for `i`
(`toInt64?_eq_some_iff`). The word operations on two such integers are the operations on their
two's complement bits (`toInt_bitwise`), the left shift keeps the low 64 bits of `i * 2 ^ n`,
and the right shift is division by `2 ^ n` rounded down.

## Main statements

* `Lox.Number.toInt64?_eq_some_iff`: the conversion is exact on the 64-bit integers.
* `Lox.bitwise_integer_view`: what each bitwise operator yields, and which fault it reports.
-/

namespace Lox.Number

open Float.Model Float.Model.UnpackedFloat

/-! ## The value of a float -/

/-- The value of a float: a rational for a finite float (0 for both zeros), none for NaN and the
infinities. -/
def value? (x : Float) : Option ℚ :=
  match x.toModel.unpack with
  | .zero _ => some 0
  | .finite s m e _ => some (s.apply m * 2 ^ e)
  | .infinity _ | .notANumber => none

theorem exponent_field (b : UInt64) :
    (@unpackExponent Format.binary64 b.toBitVec).toNat = b.toNat / 2 ^ 52 % 2 ^ 11 := by
  simp [unpackExponent, Nat.shiftRight_eq_div_pow]

theorem fraction_field (b : UInt64) :
    (@unpackMantissa Format.binary64 b.toBitVec).toNat = b.toNat % 2 ^ 52 := by
  simp [unpackMantissa]

/-- A normal float carries the hidden leading bit above its fraction. -/
theorem normal_mantissa_field (b : UInt64) :
    (1#1 ++ @unpackMantissa Format.binary64 b.toBitVec).toNat = b.toNat % 2 ^ 52 + 2 ^ 52 := by
  rw [BitVec.toNat_append, ← Nat.shiftLeft_add_eq_or_of_lt (BitVec.isLt _), fraction_field]
  simp [Nat.shiftLeft_eq]
  omega

theorem sign_field (b : UInt64) :
    Sign.ofBitVec (@unpackSign Format.binary64 b.toBitVec) =
      if b.toNat < 2 ^ 63 then .positive else .negative := by
  have hlt : b.toNat < 2 ^ 64 := b.toNat_lt
  have h : (@unpackSign Format.binary64 b.toBitVec).toNat = b.toNat / 2 ^ 63 := by
    delta unpackSign
    simp [Nat.shiftRight_eq_div_pow]
    omega
  unfold Sign.ofBitVec
  by_cases hs : b.toNat < 2 ^ 63
  · rw [if_pos hs, if_pos]
    apply BitVec.eq_of_toNat_eq
    rw [h]
    simp
    omega
  · rw [if_neg hs, if_neg]
    intro h0
    rw [h0] at h
    simp at h
    omega

theorem exponent_eq_iff (b : UInt64) (v : BitVec 11) :
    @unpackExponent Format.binary64 b.toBitVec = v ↔ b.toNat / 2 ^ 52 % 2 ^ 11 = v.toNat := by
  rw [← BitVec.toNat_inj, exponent_field]

theorem exponent_all_ones_iff (b : UInt64) :
    @unpackExponent Format.binary64 b.toBitVec = -1#11 ↔ b.toNat / 2 ^ 52 % 2 ^ 11 = 2047 :=
  exponent_eq_iff b _

theorem exponent_zero_iff (b : UInt64) :
    @unpackExponent Format.binary64 b.toBitVec = 0#11 ↔ b.toNat / 2 ^ 52 % 2 ^ 11 = 0 :=
  exponent_eq_iff b _

theorem fraction_eq_zero_iff (b : UInt64) :
    @unpackMantissa Format.binary64 b.toBitVec = 0#52 ↔ b.toNat % 2 ^ 52 = 0 := by
  rw [← BitVec.toNat_inj, fraction_field]
  rfl

/-- A pattern decodes to NaN or an infinity exactly when its exponent field is all ones. -/
theorem unpack_nonfinite_iff (b : UInt64) :
    ((UnpackedFloat.unpack Format.binary64 b.toBitVec).isNaN ||
        (UnpackedFloat.unpack Format.binary64 b.toBitVec).isInf) = true ↔
      b.toNat / 2 ^ 52 % 2 ^ 11 = 2047 := by
  rw [← exponent_all_ones_iff]
  unfold UnpackedFloat.unpack
  by_cases h1 : @unpackExponent Format.binary64 b.toBitVec = -1#11
  · rw [if_pos h1, iff_true_intro h1, iff_true]
    by_cases hm : @unpackMantissa Format.binary64 b.toBitVec = 0#52
    · rw [if_pos hm]
      rfl
    · rw [if_neg hm]
      rfl
  · rw [if_neg h1, iff_false_intro h1, iff_false]
    by_cases h0 : @unpackExponent Format.binary64 b.toBitVec = 0#11
    · rw [if_pos h0]
      by_cases hm : @unpackMantissa Format.binary64 b.toBitVec = 0#52
      · rw [dif_pos hm]
        exact Bool.false_ne_true
      · rw [dif_neg hm]
        exact Bool.false_ne_true
    · rw [if_neg h0]
      exact Bool.false_ne_true

/-- The hand decoding `Binary.ofBits` of a finite float gives its value: the sign bit applied to
`mantissa * 2 ^ exponent`. -/
theorem value?_eq (x : Float) :
    value? x = if (x.isNaN || x.isInf) then none else
      some ((if x.toBits.toNat < 2 ^ 63 then 1 else -1) * ((Binary.ofBits x.toBits).mantissa : ℚ) *
        2 ^ (Binary.ofBits x.toBits).exponent) := by
  unfold value? Float.isNaN Float.isInf Float.Model.isNaN Float.Model.isInf Float.Model.unpack
  have hx : x.toBits = x.toModel.toBits := rfl
  rw [hx]
  generalize x.toModel.toBits = b
  simp only [unpack_nonfinite_iff]
  have hbits : Binary.ofBits b = if b.toNat / 2 ^ 52 % 2 ^ 11 = 0 then ⟨b.toNat % 2 ^ 52, -1074, false⟩
      else ⟨b.toNat % 2 ^ 52 + 2 ^ 52, ((b.toNat / 2 ^ 52 % 2 ^ 11 : Nat) : Int) - 1075,
        b.toNat % 2 ^ 52 = 0 ∧ 1 < b.toNat / 2 ^ 52 % 2 ^ 11⟩ := by
    simp only [Binary.ofBits, Nat.pow_eq]
  have hE1 := exponent_all_ones_iff b
  have hE0 := exponent_zero_iff b
  have hM0 := fraction_eq_zero_iff b
  unfold UnpackedFloat.unpack
  dsimp only
  rw [sign_field]
  -- the three cases of the exponent field: all ones, zero (subnormal), and the rest (normal)
  by_cases h1 : b.toNat / 2 ^ 52 % 2 ^ 11 = 2047
  · rw [if_pos h1, if_pos (hE1.2 h1)]
    split_ifs <;> rfl
  rw [if_neg h1, if_neg (mt hE1.1 h1), hbits]
  by_cases h0 : b.toNat / 2 ^ 52 % 2 ^ 11 = 0
  · rw [if_pos (hE0.2 h0), if_pos h0]
    by_cases h2 : b.toNat % 2 ^ 52 = 0
    · rw [dif_pos (hM0.2 h2)]
      dsimp only
      rw [h2]
      simp
    · rw [dif_neg (mt hM0.1 h2)]
      dsimp only
      rw [fraction_field, exponent_field, h0]
      generalize b.toNat % 2 ^ 52 = f
      split_ifs <;> simp [Sign.apply, Format.exponentBias]
  · rw [if_neg (mt hE0.1 h0), if_neg h0]
    dsimp only
    rw [normal_mantissa_field, exponent_field]
    generalize b.toNat % 2 ^ 52 = f
    generalize b.toNat / 2 ^ 52 % 2 ^ 11 = e
    split_ifs <;> simp [Sign.apply, Format.exponentBias]

/-! ## Whole numbers -/

/-- The whole number `m * 2 ^ e`, if it is one. -/
def wholePart (m : Nat) (e : Int) : Option Nat :=
  if 0 ≤ e then some (m * Nat.pow 2 e.toNat)
  else if m % Nat.pow 2 (-e).toNat = 0 then some (m / Nat.pow 2 (-e).toNat)
  else none

theorem toInt64?_eq_wholePart (x : Float) : toInt64? x = if (x.isNaN || x.isInf) then none else
    match wholePart (Binary.ofBits x.toBits).mantissa (Binary.ofBits x.toBits).exponent with
    | none => none
    | some n =>
      let v : Int := if x.toBits.toNat ≥ Nat.pow 2 63 then -(n : Int) else n
      if -Int.pow 2 63 ≤ v ∧ v < Int.pow 2 63 then some v else none := rfl

theorem wholePart_eq_some_iff (m : Nat) (e : Int) (n : Nat) :
    wholePart m e = some n ↔ (m : ℚ) * 2 ^ e = n := by
  unfold wholePart
  simp only [Nat.pow_eq]
  by_cases he : 0 ≤ e
  · rw [if_pos he]
    obtain ⟨k, rfl⟩ := Int.eq_ofNat_of_zero_le he
    simp only [Int.toNat_natCast, zpow_natCast, Option.some.injEq]
    exact_mod_cast Iff.rfl
  · rw [if_neg he]
    obtain ⟨k, hk⟩ : ∃ k : Nat, e = -k := ⟨(-e).toNat, by omega⟩
    subst hk
    have hk : (-(-(k : Int))).toNat = k := by simp
    rw [hk, zpow_neg, zpow_natCast, ← div_eq_mul_inv, div_eq_iff (by positivity)]
    have hcast : (m : ℚ) = n * 2 ^ k ↔ m = n * 2 ^ k := by exact_mod_cast Iff.rfl
    rw [hcast]
    by_cases hd : m % 2 ^ k = 0
    · rw [if_pos hd, Option.some.injEq]
      have hm := Nat.div_mul_cancel (Nat.dvd_of_mod_eq_zero hd)
      constructor
      · rintro rfl
        exact hm.symm
      · rintro rfl
        simp
    · rw [if_neg hd]
      simp only [reduceCtorEq, false_iff]
      rintro rfl
      simp at hd

theorem wholePart_of_value {m : Nat} {e : Int} {j : Int} (h : (m : ℚ) * 2 ^ e = j) :
    wholePart m e = some j.toNat := by
  have hj : 0 ≤ j := by
    have : (0 : ℚ) ≤ j := h ▸ mul_nonneg (Nat.cast_nonneg _) (zpow_nonneg (by norm_num) _)
    exact_mod_cast this
  rw [wholePart_eq_some_iff, h]
  exact_mod_cast (Int.toNat_of_nonneg hj).symm

/-- The sign bit of the pattern applied to a whole magnitude. -/
theorem signed_magnitude (b : UInt64) (n : Nat) :
    (if b.toNat < 2 ^ 63 then 1 else -1 : ℚ) * n =
      ((if b.toNat ≥ Nat.pow 2 63 then -(n : Int) else n : Int) : ℚ) := by
  simp only [Nat.pow_eq]
  by_cases h : b.toNat < 2 ^ 63
  · rw [if_pos h, if_neg (by omega)]
    simp
  · rw [if_neg h, if_pos (by omega)]
    simp

/-! ## Floats that are 64-bit integers -/

/-- The float `x` is the whole number `i`, and `i` is a 64-bit signed integer. -/
def IsInt64 (x : Float) (i : Int) : Prop := value? x = some (i : ℚ) ∧ -2 ^ 63 ≤ i ∧ i < 2 ^ 63

/-- The conversion is exact: it returns `i` exactly when the float is the 64-bit integer `i`, so
it never saturates, rounds or truncates. -/
theorem toInt64?_eq_some_iff (x : Float) (i : Int) : toInt64? x = some i ↔ IsInt64 x i := by
  rw [toInt64?_eq_wholePart, IsInt64, value?_eq]
  by_cases hnf : (x.isNaN || x.isInf) = true
  · rw [if_pos hnf, if_pos hnf]
    simp
  rw [if_neg hnf, if_neg hnf]
  have hpow : Int.pow 2 63 = 2 ^ 63 := rfl
  rw [hpow]
  generalize Binary.ofBits x.toBits = d
  cases hw : wholePart d.mantissa d.exponent with
  | none =>
    -- a value that is a whole number would have been found
    simp only [reduceCtorEq, false_iff, Option.some.injEq, not_and]
    intro hv
    by_cases hs : x.toBits.toNat < 2 ^ 63
    · simp only [if_pos hs, one_mul] at hv
      rw [wholePart_of_value hv] at hw
      cases hw
    · simp only [if_neg hs, neg_one_mul] at hv
      rw [neg_mul, neg_eq_iff_eq_neg, ← Int.cast_neg] at hv
      rw [wholePart_of_value hv] at hw
      cases hw
  | some n =>
    have hn := (wholePart_eq_some_iff _ _ _).1 hw
    rw [mul_assoc, hn, signed_magnitude]
    dsimp only
    generalize (if x.toBits.toNat ≥ Nat.pow 2 63 then -(n : Int) else n) = v
    simp only [Int.cast_inj, Option.some.injEq]
    split_ifs <;> simp only [Option.some.injEq, false_iff] <;> grind

example : toInt64? (-0) = some 0 := by decide +kernel
example : toInt64? (Float.ofInt (-2 ^ 63)) = some (-2 ^ 63) := by decide
example : toInt64? (Float.ofInt (2 ^ 63 - 1024)) = some (2 ^ 63 - 1024) := by decide
example : toInt64? (Float.ofInt (2 ^ 63)) = none := by decide

/-! ## Bits of 64-bit integers -/

/-- A 64-bit integer survives the round trip through its bits. -/
theorem bits_toInt {i : Int} (h₁ : -2 ^ 63 ≤ i) (h₂ : i < 2 ^ 63) : (bits i).toInt = i := by
  rw [bits, BitVec.toInt_ofInt]
  exact Int.bmod_eq_of_le (by omega) (by omega)

/-- Bit `k` of the integer a word stands for is the word's bit `k` for `k < 64`, and its sign bit
beyond. -/
theorem testBit_toInt (x : BitVec 64) (k : Nat) : x.toInt.testBit k = x.getLsbD (min k 63) := by
  have hlt := x.isLt
  rw [BitVec.toInt_eq_msb_cond]
  cases hm : x.msb
  · simp only [Bool.false_eq_true, if_false]
    change x.toNat.testBit k = _
    rcases Nat.lt_or_ge k 64 with hk | hk
    · rw [Nat.min_eq_left (by omega)]
      rfl
    · have hpow : 2 ^ 64 ≤ 2 ^ k := Nat.pow_le_pow_right (by decide) hk
      rw [Nat.min_eq_right (by omega), Nat.testBit_lt_two_pow (by omega), ← hm,
        BitVec.msb_eq_getLsbD_last]
  · simp only [if_true]
    -- a negative word stands for the complement of `2 ^ 64 - 1 - x.toNat`
    have hneg : (x.toNat : Int) - ((2 ^ 64 : Nat) : Int) = Int.negSucc (2 ^ 64 - (x.toNat + 1)) := by
      rw [Int.negSucc_eq]
      omega
    rw [hneg]
    change (!(Nat.testBit (2 ^ 64 - (x.toNat + 1)) k)) = _
    rw [Nat.testBit_two_pow_sub_succ hlt]
    rcases Nat.lt_or_ge k 64 with hk | hk
    · rw [Nat.min_eq_left (by omega)]
      simp [hk]
      rfl
    · rw [Nat.min_eq_right (by omega), ← BitVec.msb_eq_getLsbD_last, hm]
      simp
      omega

/-- Integers with the same two's complement bits are equal. -/
theorem eq_of_testBit_eq {a b : Int} (h : ∀ k, a.testBit k = b.testBit k) : a = b := by
  -- far enough up, every bit of a natural number is 0, and every bit of a negative one is 1
  have high : ∀ m n : Nat, m.testBit (m + n) = false ∧ n.testBit (m + n) = false := fun m n =>
    ⟨Nat.testBit_lt_two_pow (Nat.lt_two_pow_self.trans_le (Nat.pow_le_pow_right (by decide) (by omega))),
      Nat.testBit_lt_two_pow (Nat.lt_two_pow_self.trans_le (Nat.pow_le_pow_right (by decide) (by omega)))⟩
  cases a with
  | ofNat m =>
    cases b with
    | ofNat n => exact congrArg _ (Nat.eq_of_testBit_eq h)
    | negSucc n =>
      have hk := h (m + n)
      simp [Int.testBit, high] at hk
  | negSucc m =>
    cases b with
    | ofNat n =>
      have hk := h (m + n)
      simp [Int.testBit, high] at hk
    | negSucc n => exact congrArg _ (Nat.eq_of_testBit_eq fun k => by simpa [Int.testBit] using h k)

/-- Bit `k` of a 64-bit integer, read off its word. -/
theorem testBit_of_range {i : Int} (h₁ : -2 ^ 63 ≤ i) (h₂ : i < 2 ^ 63) (k : Nat) :
    i.testBit k = (bits i).getLsbD (min k 63) := by
  have h := testBit_toInt (bits i) k
  rwa [bits_toInt h₁ h₂] at h

/-- A bitwise operation on the words of two 64-bit integers is the same operation on the
integers' two's complement bits. -/
theorem toInt_bitwise (f : Bool → Bool → Bool) (op : BitVec 64 → BitVec 64 → BitVec 64)
    (hop : ∀ x y k, (op x y).getLsbD k = f (x.getLsbD k) (y.getLsbD k)) {a b : Int}
    (ha₁ : -2 ^ 63 ≤ a) (ha₂ : a < 2 ^ 63) (hb₁ : -2 ^ 63 ≤ b) (hb₂ : b < 2 ^ 63) :
    (op (bits a) (bits b)).toInt = Int.bitwise f a b :=
  eq_of_testBit_eq fun k => by
    rw [testBit_toInt, hop, Int.testBit_bitwise, testBit_of_range ha₁ ha₂, testBit_of_range hb₁ hb₂]

section Range

variable {a b : Int} (ha₁ : -2 ^ 63 ≤ a) (ha₂ : a < 2 ^ 63) (hb₁ : -2 ^ 63 ≤ b) (hb₂ : b < 2 ^ 63)
include ha₁ ha₂ hb₁ hb₂

theorem bitAnd_eq : bitAnd a b = Int.land a b := by
  rw [bitAnd, ← Int.bitwise_and]
  exact toInt_bitwise _ _ (fun _ _ _ => BitVec.getLsbD_and) ha₁ ha₂ hb₁ hb₂

theorem bitOr_eq : bitOr a b = Int.lor a b := by
  rw [bitOr, ← Int.bitwise_or]
  exact toInt_bitwise _ _ (fun _ _ _ => BitVec.getLsbD_or) ha₁ ha₂ hb₁ hb₂

theorem bitXor_eq : bitXor a b = Int.xor a b := by
  rw [bitXor, ← Int.bitwise_xor]
  exact toInt_bitwise _ _ (fun _ _ _ => BitVec.getLsbD_xor) ha₁ ha₂ hb₁ hb₂

end Range

/-- Shifting left keeps the low 64 bits of `a * 2 ^ n`, read as a signed integer. -/
theorem shiftLeft_eq (a : Int) (n : Nat) : shiftLeft a n = (a * 2 ^ n).bmod (2 ^ 64) := by
  rw [shiftLeft, BitVec.toInt_shiftLeft, bits, BitVec.toNat_ofInt, Nat.shiftLeft_eq, Nat.cast_mul,
    Int.toNat_of_nonneg (Int.emod_nonneg _ (by decide))]
  have h : (a % ((2 ^ 64 : Nat) : Int) * 2 ^ n).bmod (2 ^ 64) = (a * 2 ^ n).bmod (2 ^ 64) :=
    Int.emod_mul_bmod a _
  push_cast at h ⊢
  exact h

/-- Shifting right is division by `2 ^ n` rounded down. -/
theorem shiftRight_eq (a : Int) (n : Nat) : shiftRight a n = ⌊(a : ℚ) / 2 ^ n⌋ := by
  rw [shiftRight, Int.shiftRight_eq_div_pow]
  have h := Rat.floor_intCast_div_natCast a (2 ^ n)
  push_cast at h
  exact h.symm

end Lox.Number

namespace Lox

open Number

/-! ## Both operands as integers -/

theorem integersOf_numbers (t : Token) (x y : Float) :
    integersOf t (.number x) (.number y) =
      match toInt64? x, toInt64? y with
      | some i, some j => .ok (i, j)
      | _, _ => .error (.operandsNotIntegers t) := rfl

theorem integersOf_of_not_numbers {t : Token} {l r : Value}
    (h : ∀ x y, ¬(l = .number x ∧ r = .number y)) :
    integersOf t l r = .error (.operandsNotNumbers t l.kind r.kind) := by
  unfold integersOf numbersOf
  split
  · exact absurd ⟨rfl, rfl⟩ (h _ _)
  · rfl

/-- Both operands are read as 64-bit integers exactly when both are numbers that stand for them. -/
theorem integersOf_eq_ok_iff (t : Token) (l r : Value) (i j : Int) :
    integersOf t l r = .ok (i, j) ↔
      ∃ x y, l = .number x ∧ r = .number y ∧ IsInt64 x i ∧ IsInt64 y j := by
  by_cases hn : ∃ x y, l = .number x ∧ r = .number y
  · obtain ⟨x, y, rfl, rfl⟩ := hn
    rw [integersOf_numbers]
    simp only [Value.number.injEq, exists_and_left, exists_eq_left', ← toInt64?_eq_some_iff]
    cases hx : toInt64? x <;> cases hy : toInt64? y <;> simp
  · rw [integersOf_of_not_numbers fun x y h => hn ⟨x, y, h⟩]
    simp only [reduceCtorEq, false_iff]
    rintro ⟨x, y, hl, hr, -⟩
    exact hn ⟨x, y, hl, hr⟩

theorem integersOf_not_integers {t : Token} {x y : Float}
    (h : (∀ i, ¬IsInt64 x i) ∨ (∀ j, ¬IsInt64 y j)) :
    integersOf t (.number x) (.number y) = .error (.operandsNotIntegers t) := by
  rw [integersOf_numbers]
  simp only [← toInt64?_eq_some_iff] at h
  rcases h with h | h
  · cases hx : toInt64? x with
    | none => rfl
    | some i => exact absurd hx (h i)
  · cases hy : toInt64? y with
    | none => cases toInt64? x <;> rfl
    | some j => exact absurd hy (h j)

/-! ## The five operators -/

/-- The bitwise operators. -/
inductive Bitwise
  | and | or | xor | shiftLeft | shiftRight
  deriving DecidableEq, Repr

namespace Bitwise

/-- The operator's node in the syntax. -/
def op : Bitwise → BinaryOp
  | .and => .bitAnd
  | .or => .bitOr
  | .xor => .bitXor
  | .shiftLeft => .shiftLeft
  | .shiftRight => .shiftRight

/-- The exact result on two 64-bit integers: the two's complement `and`, `or` and `xor`, the low
64 bits of `i * 2 ^ j` read as a signed integer, and `⌊i / 2 ^ j⌋`. -/
def exact : Bitwise → Int → Int → Int
  | .and, i, j => Int.land i j
  | .or, i, j => Int.lor i j
  | .xor, i, j => Int.xor i j
  | .shiftLeft, i, j => (i * 2 ^ j.toNat).bmod (2 ^ 64)
  | .shiftRight, i, j => ⌊(i : ℚ) / 2 ^ j.toNat⌋

/-- The right operands an operator takes: any 64-bit integer, and for a shift one in `0 … 63`. -/
def Admits : Bitwise → Int → Prop
  | .shiftLeft, j | .shiftRight, j => 0 ≤ j ∧ j < 64
  | .and, _ | .or, _ | .xor, _ => True

instance (b : Bitwise) (j : Int) : Decidable (b.Admits j) := by
  cases b <;> unfold Admits <;> infer_instance

end Bitwise

theorem apply_of_integersOf_error {b : Bitwise} {t : Token} {l r : Value} {e : RuntimeFault}
    (h : integersOf t l r = .error e) : b.op.apply t l r = .error e := by
  cases b <;> simp [Bitwise.op, BinaryOp.apply, h, bind, Except.bind]

/-- On two 64-bit integers every bitwise operator yields the nearest float to its exact result,
once a shift has checked its amount. -/
theorem apply_of_integersOf_ok {b : Bitwise} {t : Token} {l r : Value} {i j : Int}
    (h : integersOf t l r = .ok (i, j)) :
    b.op.apply t l r =
      if b.Admits j then .ok (.number (Float.ofInt (b.exact i j))) else .error (.shiftOutOfRange t) := by
  obtain ⟨x, y, -, -, ⟨-, hi₁, hi₂⟩, ⟨-, hj₁, hj₂⟩⟩ := (integersOf_eq_ok_iff t l r i j).1 h
  cases b with
  | and =>
    simp [Bitwise.op, Bitwise.exact, Bitwise.Admits, BinaryOp.apply, h, bind, Except.bind,
      bitAnd_eq hi₁ hi₂ hj₁ hj₂]
  | or =>
    simp [Bitwise.op, Bitwise.exact, Bitwise.Admits, BinaryOp.apply, h, bind, Except.bind,
      bitOr_eq hi₁ hi₂ hj₁ hj₂]
  | xor =>
    simp [Bitwise.op, Bitwise.exact, Bitwise.Admits, BinaryOp.apply, h, bind, Except.bind,
      bitXor_eq hi₁ hi₂ hj₁ hj₂]
  | shiftLeft =>
    by_cases hj : 0 ≤ j ∧ j < 64 <;>
      simp [Bitwise.op, Bitwise.exact, Bitwise.Admits, BinaryOp.apply, h, bind, Except.bind,
        shiftAmount?, hj, shiftLeft_eq]
  | shiftRight =>
    by_cases hj : 0 ≤ j ∧ j < 64 <;>
      simp [Bitwise.op, Bitwise.exact, Bitwise.Admits, BinaryOp.apply, h, bind, Except.bind,
        shiftAmount?, hj, shiftRight_eq]

/-- What a bitwise operator does with two values `l` and `r`, reported at the token `t`. -/
structure IntegerView (b : Bitwise) (t : Token) (l r : Value) : Prop where
  /-- It succeeds exactly on two numbers that are 64-bit integers, the right one in `0 … 63`
  for a shift. -/
  ok_iff : (∃ v, b.op.apply t l r = .ok v) ↔
    ∃ x y i j, l = .number x ∧ r = .number y ∧ IsInt64 x i ∧ IsInt64 y j ∧ b.Admits j
  /-- It then reads both operands exactly and yields the float nearest to the exact result. -/
  result : ∀ x y i j, l = .number x → r = .number y → IsInt64 x i → IsInt64 y j → b.Admits j →
    b.op.apply t l r = .ok (.number (Float.ofInt (b.exact i j)))
  /-- An operand that is not a number: "Operands must be numbers." -/
  not_numbers : (∀ x y, ¬(l = .number x ∧ r = .number y)) →
    b.op.apply t l r = .error (.operandsNotNumbers t l.kind r.kind)
  /-- Two numbers, one of them NaN, infinite, fractional or outside `[-2 ^ 63, 2 ^ 63)`:
  "Operands must be integers." -/
  not_integers : ∀ x y, l = .number x → r = .number y →
    ((∀ i, ¬IsInt64 x i) ∨ (∀ j, ¬IsInt64 y j)) →
    b.op.apply t l r = .error (.operandsNotIntegers t)
  /-- Two 64-bit integers, shifted by an amount outside `0 … 63`:
  "Shift amount must be between 0 and 63." -/
  out_of_range : ∀ x y i j, l = .number x → r = .number y → IsInt64 x i → IsInt64 y j →
    ¬b.Admits j → b.op.apply t l r = .error (.shiftOutOfRange t)

/-- Every bitwise operator reads its operands as 64-bit integers, exactly, and computes on their
two's complement bits; it refuses non-numbers first, then numbers that are not such integers,
then shift amounts outside `0 … 63`. -/
theorem bitwise_integer_view (b : Bitwise) (t : Token) (l r : Value) : IntegerView b t l r where
  ok_iff := by
    constructor
    · rintro ⟨v, hv⟩
      cases hlr : integersOf t l r with
      | error e =>
        rw [apply_of_integersOf_error hlr] at hv
        cases hv
      | ok p =>
        obtain ⟨i, j⟩ := p
        obtain ⟨x, y, hl, hr, hx, hy⟩ := (integersOf_eq_ok_iff t l r i j).1 hlr
        rw [apply_of_integersOf_ok hlr] at hv
        by_cases hj : b.Admits j
        · exact ⟨x, y, i, j, hl, hr, hx, hy, hj⟩
        · rw [if_neg hj] at hv
          cases hv
    · rintro ⟨x, y, i, j, hl, hr, hx, hy, hj⟩
      have hlr := (integersOf_eq_ok_iff t l r i j).2 ⟨x, y, hl, hr, hx, hy⟩
      exact ⟨_, by rw [apply_of_integersOf_ok hlr, if_pos hj]⟩
  result x y i j hl hr hx hy hj := by
    rw [apply_of_integersOf_ok ((integersOf_eq_ok_iff t l r i j).2 ⟨x, y, hl, hr, hx, hy⟩), if_pos hj]
  not_numbers h := apply_of_integersOf_error (integersOf_of_not_numbers h)
  not_integers x y hl hr h := by
    subst hl hr
    exact apply_of_integersOf_error (integersOf_not_integers h)
  out_of_range x y i j hl hr hx hy hj := by
    rw [apply_of_integersOf_ok ((integersOf_eq_ok_iff t l r i j).2 ⟨x, y, hl, hr, hx, hy⟩), if_neg hj]

/-- `6 & 3` is `2`; `1 << 64` is refused for its shift amount; `0.5 | 1` for its operand. -/
theorem bitwise_on_small_integers :
    BinaryOp.bitAnd.apply ⟨.ampersand, "&", none, 1, 3⟩ (.number (Float.ofInt 6))
      (.number (Float.ofInt 3)) = .ok (.number (Float.ofInt 2)) ∧
    BinaryOp.shiftLeft.apply ⟨.lessLess, "<<", none, 1, 3⟩ (.number (Float.ofInt 1))
      (.number (Float.ofInt 64)) = .error (.shiftOutOfRange ⟨.lessLess, "<<", none, 1, 3⟩) ∧
    BinaryOp.bitOr.apply ⟨.pipe, "|", none, 1, 5⟩ (.number 0.5) (.number (Float.ofInt 1)) =
      .error (.operandsNotIntegers ⟨.pipe, "|", none, 1, 5⟩) := by
  have hint : ∀ i : Int, toInt64? (Float.ofInt i) = some i → IsInt64 (Float.ofInt i) i :=
    fun i h => (toInt64?_eq_some_iff _ _).1 h
  have hand := (bitwise_integer_view .and ⟨.ampersand, "&", none, 1, 3⟩ _ _).result _ _ 6 3 rfl rfl
    (hint 6 (by decide)) (hint 3 (by decide)) trivial
  have hhalf : ∀ i, ¬IsInt64 0.5 i := fun i h => by
    rw [← toInt64?_eq_some_iff, show toInt64? 0.5 = none by decide] at h
    cases h
  refine ⟨?_, (bitwise_integer_view .shiftLeft ⟨.lessLess, "<<", none, 1, 3⟩ _ _).out_of_range _ _
    1 64 rfl rfl (hint 1 (by decide)) (hint 64 (by decide)) (by decide),
    (bitwise_integer_view .or ⟨.pipe, "|", none, 1, 5⟩ _ _).not_integers _ _ rfl rfl (.inl hhalf)⟩
  rw [show Bitwise.and.exact 6 3 = 2 by decide] at hand
  exact hand

end Lox
