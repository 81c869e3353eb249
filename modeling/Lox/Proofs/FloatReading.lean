import Lox.Proofs.ShortestDecimal
import Lox.Proofs.Bitwise
import Mathlib
/-!
# Reading a decimal back as a float

A decimal reads back as the finite float nearest to it, a tie going to the float with the even
last bit. This module shows that every number in the rounding interval of a float reads back as
that float (`readsAs_shortest`, for the shortest decimal), and that two floats share no number
of their intervals, so the shortest decimal and the sign bit together determine a finite float
(`eq_of_shortest_val_eq`).

Both rest on the spacing of the floats: no float lies strictly between `m · 2 ^ q` and the
floats next to it, `gapBelow` below and `2 ^ q` above (`Valid.gap`), and the float above a
float with an even mantissa has an odd one (`Valid.odd_of_succ`).
-/

namespace Lox

namespace Binary

variable {b c : Binary}

theorem val_nonneg (b : Binary) : 0 ≤ b.val := by
  unfold val
  positivity

theorem val_pos (hm : 0 < b.mantissa) : 0 < b.val := by
  have : (0 : ℚ) < b.mantissa := by exact_mod_cast hm
  unfold val
  positivity

theorem val_eq_zero (hm : b.mantissa = 0) : b.val = 0 := by
  simp [val, hm]

/-! ## The spacing of the floats -/

/-- A value on the grid `2 ^ p` lies on every coarser grid `2 ^ q`, `q ≤ p`. -/
theorem mul_two_pow_shift (a : ℕ) {p q : ℤ} (hqp : q ≤ p) :
    (a : ℚ) * 2 ^ p = ((a * 2 ^ (p - q).toNat : ℕ) : ℚ) * 2 ^ q := by
  push_cast
  rw [mul_assoc, ← zpow_natCast, ← zpow_add₀ (by norm_num), Int.toNat_of_nonneg (by omega)]
  congr 2
  omega

/-- Two values on the grids `2 ^ p` and `2 ^ q`, `p ≤ q`, meet only where the finer mantissa is
the coarser one shifted. -/
theorem mantissa_eq_of_val_eq {a n : ℕ} {p q : ℤ} (hpq : p ≤ q)
    (h : (a : ℚ) * 2 ^ p = n * 2 ^ q) : a = n * 2 ^ (q - p).toNat := by
  rw [mul_two_pow_shift n hpq] at h
  exact_mod_cast mul_right_cancel₀ (by positivity) h

/-- A value `n · 2 ^ q` whose mantissa and exponent are in range is carried by that mantissa and
exponent only. -/
theorem Valid.eq_of_val (hc : c.Valid) {n : ℕ} {q : ℤ} (hn : n < 2 ^ 53) (hq : -1074 ≤ q)
    (hnormal : -1074 < q → 2 ^ 52 ≤ n) (hv : c.val = n * 2 ^ q) :
    c.mantissa = n ∧ c.exponent = q := by
  unfold val at hv
  have hc53 := hc.mantissa_lt
  rcases lt_trichotomy c.exponent q with hlt | heq | hgt
  · -- on a finer grid the mantissa would need a 54th bit
    have hn52 := hnormal (by have := hc.exponent_ge; omega)
    have hshift := mantissa_eq_of_val_eq hlt.le hv
    have h2 : 2 ≤ 2 ^ (q - c.exponent).toNat :=
      Nat.le_self_pow (by omega) 2 |>.trans' (by norm_num)
    have := Nat.mul_le_mul hn52 h2
    omega
  · rw [heq] at hv
    exact ⟨by exact_mod_cast mul_right_cancel₀ (by positivity) hv, heq⟩
  · have hc52 := hc.normal (by omega)
    have hshift := mantissa_eq_of_val_eq hgt.le hv.symm
    have h2 : 2 ≤ 2 ^ (c.exponent - q).toNat :=
      Nat.le_self_pow (by omega) 2 |>.trans' (by norm_num)
    have := Nat.mul_le_mul hc52 h2
    omega

/-- A finite float is determined by its value. -/
theorem Valid.ext_val (hb : b.Valid) (hc : c.Valid) (hv : b.val = c.val) : b = c := by
  obtain ⟨hm, he⟩ := hc.eq_of_val hb.mantissa_lt hb.exponent_ge hb.normal hv.symm
  have hn : b.narrowBelow = c.narrowBelow := by
    rw [Bool.eq_iff_iff, hb.narrow, hc.narrow, hm, he]
  cases b
  cases c
  simp only [Binary.mk.injEq]
  exact ⟨hm.symm, he.symm, hn⟩

/-- No float lies strictly between a float `m · 2 ^ q` and its neighbours, `gapBelow` below it
and `2 ^ q` above it. -/
theorem Valid.gap (hb : b.Valid) (hc : c.Valid) (hne : c.val ≠ b.val) :
    c.val ≤ b.val - b.gapBelow ∨ b.val + 2 ^ b.exponent ≤ c.val := by
  have hp : (0 : ℚ) < 2 ^ b.exponent := by positivity
  rcases lt_or_ge c.exponent b.exponent with hlt | hle
  · -- below the binade of `b`: at most `(2 ^ 53 - 1) · 2 ^ (q - 1)`, the float below
    -- `2 ^ 52 · 2 ^ q`
    left
    have hc0 := hc.exponent_ge
    have hm52 := hb.normal (by omega)
    have h2 : (2 : ℚ) ^ b.exponent = 2 * 2 ^ (b.exponent - 1) := by
      rw [← zpow_one_add₀ (by norm_num)]
      congr 1
      omega
    have hp1 : (0 : ℚ) < 2 ^ (b.exponent - 1) := by positivity
    have hq : (2 : ℚ) ^ c.exponent ≤ 2 ^ (b.exponent - 1) :=
      zpow_le_zpow_right₀ (by norm_num) (by omega)
    have hcm : (c.mantissa : ℚ) + 1 ≤ 2 ^ 53 := by exact_mod_cast hc.mantissa_lt
    have hcv : c.val ≤ (2 ^ 53 - 1) * 2 ^ (b.exponent - 1) := by
      unfold val
      calc (c.mantissa : ℚ) * 2 ^ c.exponent ≤ c.mantissa * 2 ^ (b.exponent - 1) := by gcongr
        _ ≤ (2 ^ 53 - 1) * 2 ^ (b.exponent - 1) := by gcongr; linarith
    refine hcv.trans ?_
    unfold val gapBelow
    split
    · rename_i hn
      rw [(hb.narrow.1 hn).1, h2]
      push_cast
      linarith
    · rename_i hn
      -- not at the bottom of its binade, so the mantissa is above `2 ^ 52`
      have hm : (2 ^ 52 + 1 : ℚ) ≤ b.mantissa := by
        have : b.mantissa ≠ 2 ^ 52 := fun h => hn (hb.narrow.2 ⟨h, by omega⟩)
        exact_mod_cast (by omega : 2 ^ 52 + 1 ≤ b.mantissa)
      rw [h2]
      nlinarith [mul_le_mul_of_nonneg_right hm hp1.le]
  · -- on the grid `2 ^ q`, at a mantissa other than `m`
    have hcv : c.val = ((c.mantissa * 2 ^ (c.exponent - b.exponent).toNat : ℕ) : ℚ) *
        2 ^ b.exponent := mul_two_pow_shift c.mantissa hle
    rw [hcv] at hne ⊢
    generalize c.mantissa * 2 ^ (c.exponent - b.exponent).toNat = n at hne ⊢
    unfold val at hne ⊢
    have hnm : n ≠ b.mantissa := fun h => hne (by rw [h])
    have hg := gapBelow_le b
    rcases Nat.lt_or_gt_of_ne hnm with hlt | hgt
    · left
      have : (n : ℚ) + 1 ≤ b.mantissa := by exact_mod_cast hlt
      nlinarith
    · right
      have : (b.mantissa : ℚ) + 1 ≤ n := by exact_mod_cast hgt
      nlinarith

/-- The float above a float with an even mantissa has an odd mantissa. -/
theorem Valid.odd_of_succ (hb : b.Valid) (hc : c.Valid) (heven : b.mantissa % 2 = 0)
    (hv : c.val = b.val + 2 ^ b.exponent) : c.mantissa % 2 = 1 := by
  have hb53 := hb.mantissa_lt
  have hsucc : c.val = ((b.mantissa + 1 : ℕ) : ℚ) * 2 ^ b.exponent := by
    rw [hv]
    unfold val
    push_cast
    ring
  obtain ⟨hm, -⟩ := hc.eq_of_val (by omega) hb.exponent_ge
    (fun h => (hb.normal h).trans (Nat.le_succ _)) hsucc
  omega

/-! ## The rounding interval in values -/

section Interval

variable {ρ : ℚ}

/-- A number lies in the rounding interval of a positive float when it is at most halfway to
each neighbour, the halfway points counted for an even mantissa. -/
theorem holds_iff (hm : 0 < b.mantissa) :
    b.interval.Holds ρ ↔
      (b.val - b.gapBelow / 2 < ρ ∨ b.mantissa % 2 = 0 ∧ b.val - b.gapBelow / 2 = ρ) ∧
        (ρ < b.val + 2 ^ b.exponent / 2 ∨
          b.mantissa % 2 = 0 ∧ ρ = b.val + 2 ^ b.exponent / 2) := by
  rw [Interval.Holds, interval_lowVal hm, interval_highVal, interval_closed]

/-- A number in the rounding interval of a positive float lies above half the float. -/
theorem half_lt_of_holds (hm : 0 < b.mantissa) (h : b.interval.Holds ρ) :
    b.val / 2 < ρ := by
  obtain ⟨hl, -⟩ := (holds_iff hm).1 h
  have hg := gapBelow_le b
  have hp : (0 : ℚ) < 2 ^ b.exponent := by positivity
  unfold val at hl ⊢
  rcases Nat.lt_or_ge 1 b.mantissa with h2 | h1
  · have : (2 : ℚ) ≤ b.mantissa := by exact_mod_cast h2
    rcases hl with hl | ⟨-, hl⟩ <;> nlinarith
  · -- the smallest float: its mantissa is odd, so the low end is excluded
    have h1 : b.mantissa = 1 := by omega
    rcases hl with hl | ⟨hodd, -⟩
    · rw [h1] at hl ⊢
      push_cast at hl ⊢
      linarith
    · omega

/-- Two positive floats share no number of their rounding intervals: where the interval of one
float ends, the interval of the next begins, and only one of the two counts that point. -/
theorem not_holds_of_lt (hb : b.Valid) (hc : c.Valid) (hbm : 0 < b.mantissa)
    (hcm : 0 < c.mantissa) (hlt : b.val < c.val) (hρb : b.interval.Holds ρ)
    (hρc : c.interval.Holds ρ) : False := by
  have habove := (hb.gap hc hlt.ne').resolve_left (by have := gapBelow_pos b; linarith)
  have hbelow := (hc.gap hb hlt.ne).resolve_right (by
    have : (0 : ℚ) < 2 ^ c.exponent := by positivity
    linarith)
  obtain ⟨-, hhb⟩ := (holds_iff hbm).1 hρb
  obtain ⟨hlc, -⟩ := (holds_iff hcm).1 hρc
  -- the high end of `b` is at most the low end of `c`, with equality only for neighbours
  rcases hhb with hhb | ⟨hbe, hhb⟩ <;> rcases hlc with hlc | ⟨hce, hlc⟩
  · linarith
  · linarith
  · linarith
  · have hsucc : c.val = b.val + 2 ^ b.exponent := by linarith
    have := hb.odd_of_succ hc hbe hsucc
    omega

theorem eq_of_holds (hb : b.Valid) (hc : c.Valid) (hbm : 0 < b.mantissa) (hcm : 0 < c.mantissa)
    (hρb : b.interval.Holds ρ) (hρc : c.interval.Holds ρ) : b = c := by
  rcases lt_trichotomy b.val c.val with hlt | heq | hgt
  · exact (not_holds_of_lt hb hc hbm hcm hlt hρb hρc).elim
  · exact hb.ext_val hc heq
  · exact (not_holds_of_lt hc hb hcm hbm hgt hρc hρb).elim

/-- A number in the rounding interval of a positive float is no farther from it than from any
other float, and as far only from a neighbour when the mantissa is even. -/
theorem nearest_of_holds (hb : b.Valid) (hc : c.Valid) (hm : 0 < b.mantissa)
    (h : b.interval.Holds ρ) :
    |ρ - b.val| ≤ |ρ - c.val| ∧
      (c.val ≠ b.val → |ρ - c.val| = |ρ - b.val| → b.mantissa % 2 = 0) := by
  by_cases hne : c.val = b.val
  · rw [hne]
    exact ⟨le_rfl, fun h => absurd rfl h⟩
  obtain ⟨hl, hh⟩ := (holds_iff hm).1 h
  have hg := gapBelow_pos b
  have hgl := gapBelow_le b
  have hlo : b.val - b.gapBelow / 2 ≤ ρ := by rcases hl with hl | ⟨-, hl⟩ <;> linarith
  have hhi : ρ ≤ b.val + 2 ^ b.exponent / 2 := by rcases hh with hh | ⟨-, hh⟩ <;> linarith
  -- the other float lies at least a spacing away, on the side of `ρ` or the other
  rcases hb.gap hc hne with hgap | hgap
  · have hc' : |ρ - c.val| = ρ - c.val := abs_of_pos (by linarith)
    rw [hc']
    refine ⟨abs_le.2 ⟨by linarith, by linarith⟩, fun _ heq => ?_⟩
    -- as far only at the low end
    rcases hl with hl | ⟨he, -⟩
    · exact absurd heq.symm (abs_lt.2 ⟨by linarith, by linarith⟩).ne
    · exact he
  · have hc' : |ρ - c.val| = c.val - ρ := by rw [abs_of_neg (by linarith)]; ring
    rw [hc']
    refine ⟨abs_le.2 ⟨by linarith, by linarith⟩, fun _ heq => ?_⟩
    -- as far only at the high end
    rcases hh with hh | ⟨he, -⟩
    · exact absurd heq.symm (abs_lt.2 ⟨by linarith, by linarith⟩).ne
    · exact he

/-- The interval of the largest float stops short of the overflow threshold
`2 ^ 1024 - 2 ^ 970`, halfway to the power of two above it. -/
theorem lt_overflow_of_holds (hb : b.Valid) (hm : 0 < b.mantissa) (h : b.interval.Holds ρ) :
    ρ < 2 ^ 1024 - 2 ^ 970 := by
  obtain ⟨-, hh⟩ := (holds_iff hm).1 h
  -- everything in units of `t = 2 ^ 970`, kept symbolic
  have hthr : (2 : ℚ) ^ 1024 - 2 ^ 970 = (2 ^ 54 - 1) * 2 ^ 970 := by
    rw [show (1024 : ℕ) = 54 + 970 from rfl, pow_add, sub_mul, one_mul]
  have hq : (2 : ℚ) ^ b.exponent ≤ 2 * 2 ^ 970 := by
    rw [← pow_succ', ← zpow_natCast]
    exact zpow_le_zpow_right₀ (by norm_num) hb.exponent_le
  rw [hthr]
  generalize (2 : ℚ) ^ 970 = t at hq
  have hp : (0 : ℚ) < 2 ^ b.exponent := by positivity
  have hb53 := hb.mantissa_lt
  unfold val at hh
  rcases hh with hh | ⟨heven, hh⟩
  · -- an odd largest mantissa leaves the high end out
    have : (b.mantissa : ℚ) + 1 ≤ 2 ^ 53 := by exact_mod_cast hb53
    calc ρ < b.mantissa * 2 ^ b.exponent + 2 ^ b.exponent / 2 := hh
      _ = (b.mantissa + 1 / 2) * 2 ^ b.exponent := by ring
      _ ≤ (2 ^ 53 - 1 / 2) * 2 ^ b.exponent := by gcongr; linarith
      _ ≤ (2 ^ 53 - 1 / 2) * (2 * t) := mul_le_mul_of_nonneg_left hq (by norm_num)
      _ = (2 ^ 54 - 1) * t := by ring
  · have : (b.mantissa : ℚ) + 2 ≤ 2 ^ 53 := by
      exact_mod_cast (by omega : b.mantissa + 2 ≤ 2 ^ 53)
    have ht : 0 < t := by linarith
    calc ρ = (b.mantissa + 1 / 2) * 2 ^ b.exponent := by rw [hh]; ring
      _ ≤ (2 ^ 53 - 3 / 2) * 2 ^ b.exponent := by gcongr; linarith
      _ ≤ (2 ^ 53 - 3 / 2) * (2 * t) := mul_le_mul_of_nonneg_left hq (by norm_num)
      _ < (2 ^ 54 - 1) * t := by linarith

/-- The shortest decimal of a positive float is positive, and that of zero is zero. -/
theorem shortest_val_pos (hb : b.Valid) (hm : 0 < b.mantissa) : 0 < (Decimal.shortest b).val := by
  have := half_lt_of_holds hm (shortest_holds hb hm)
  have := val_pos hm
  linarith

theorem shortest_val_zero (hm : b.mantissa = 0) : (Decimal.shortest b).val = 0 := by
  simp [Decimal.val, shortest_digits_zero hm]

/-- Two finite floats with the same shortest decimal are the same float. -/
theorem eq_of_shortest_val_eq (hb : b.Valid) (hc : c.Valid)
    (h : (Decimal.shortest b).val = (Decimal.shortest c).val) : b = c := by
  rcases Nat.eq_zero_or_pos b.mantissa with hb0 | hbm <;>
    rcases Nat.eq_zero_or_pos c.mantissa with hc0 | hcm
  · exact hb.ext_val hc (by rw [val_eq_zero hb0, val_eq_zero hc0])
  · have := shortest_val_pos hc hcm
    rw [← h, shortest_val_zero hb0] at this
    exact absurd this (lt_irrefl 0)
  · have := shortest_val_pos hb hbm
    rw [h, shortest_val_zero hc0] at this
    exact absurd this (lt_irrefl 0)
  · exact eq_of_holds hb hc hbm hcm (shortest_holds hb hbm) (h ▸ shortest_holds hc hcm)

end Interval

/-- The last bit of the mantissa is the last bit of the pattern. -/
theorem ofBits_mantissa_mod_two (bits : UInt64) : (ofBits bits).mantissa % 2 = bits.toNat % 2 := by
  unfold ofBits
  simp only [Nat.pow_eq]
  split_ifs <;> dsimp only <;> omega

/-- The bits of a float are its sign bit and the two fields that `ofBits` decodes. -/
theorem ofBits_inj {x y : UInt64} (hs : x.toNat / 2 ^ 63 = y.toNat / 2 ^ 63)
    (h : ofBits x = ofBits y) : x = y := by
  have hx64 := x.toNat_lt
  have hy64 := y.toNat_lt
  apply UInt64.toNat_inj.1
  unfold ofBits at h
  simp only [Nat.pow_eq] at h
  split_ifs at h <;> simp only [Binary.mk.injEq] at h <;> obtain ⟨h₁, h₂, -⟩ := h <;> omega

end Binary

namespace Number

open Float.Model Float.Model.UnpackedFloat

/-! ## Reading back -/

/-- The signed number `±a`, negative for a set sign bit. -/
def signed (neg : Bool) (a : ℚ) : ℚ := if neg then -a else a

@[simp] theorem signed_false (a : ℚ) : signed false a = a := rfl

@[simp] theorem signed_true (a : ℚ) : signed true a = -a := rfl

theorem abs_signed_sub_signed (s : Bool) (a c : ℚ) : |signed s a - signed s c| = |a - c| := by
  cases s
  · rfl
  · simp only [signed_true]
    rw [← abs_neg]
    ring_nf

theorem abs_signed (s : Bool) {a : ℚ} (ha : 0 ≤ a) : |signed s a| = a := by
  cases s
  · exact abs_of_nonneg ha
  · rw [signed_true, abs_neg, abs_of_nonneg ha]

/-- Numbers of opposite signs lie as far apart as their magnitudes together. -/
theorem abs_signed_sub_signed_of_ne {s t : Bool} (hst : s ≠ t) {a c : ℚ} (ha : 0 ≤ a)
    (hc : 0 ≤ c) :
    |signed s a - signed t c| = a + c := by
  cases s <;> cases t <;> simp only [signed_true, signed_false] <;> first
    | exact absurd rfl hst
    | rw [abs_of_nonneg (by linarith)]; ring
    | rw [abs_of_nonpos (by linarith)]; ring

/-- With signs: a number in the rounding interval of a positive float, carrying the float's
sign, is no farther from the float than from any other float of either sign, and as far only
from a neighbour when the mantissa is even. -/
theorem nearest_signed {b c : Binary} (hb : b.Valid) (hc : c.Valid) (hm : 0 < b.mantissa) {ρ : ℚ}
    (h : b.interval.Holds ρ) (s t : Bool) :
    |signed s ρ - signed s b.val| ≤ |signed s ρ - signed t c.val| ∧
      (signed t c.val ≠ signed s b.val →
        |signed s ρ - signed t c.val| = |signed s ρ - signed s b.val| → b.mantissa % 2 = 0) := by
  have hhalf := Binary.half_lt_of_holds hm h
  have hbpos := Binary.val_pos hm
  rw [abs_signed_sub_signed]
  by_cases hst : t = s
  · -- the same sign: the magnitudes decide
    subst hst
    rw [abs_signed_sub_signed]
    obtain ⟨hle, htie⟩ := Binary.nearest_of_holds hb hc hm h
    exact ⟨hle, fun hne heq => htie (fun h => hne (by rw [h])) heq⟩
  · -- a float of the opposite sign lies farther than the float itself
    have hfar : |ρ - b.val| < |signed s ρ - signed t c.val| := by
      rw [abs_signed_sub_signed_of_ne (Ne.symm hst) (by linarith) (Binary.val_nonneg _), abs_lt]
      constructor <;> linarith [Binary.val_nonneg c]
    exact ⟨hfar.le, fun _ heq => absurd heq hfar.ne'⟩

/-- Reading the rational `r` as a float gives `x`, rounding to nearest with ties to even: `x` is
finite, `r` lies below the threshold `2 ^ 1024 - 2 ^ 970` from which reading overflows, no finite
float lies nearer to `r` than `x`, and one of another value that lies as near leaves `x` with
the even last bit. -/
structure ReadsAs (r : ℚ) (x : Float) : Prop where
  finite : x.isFinite = true
  below_overflow : |r| < 2 ^ 1024 - 2 ^ 970
  nearest : ∀ (y : Float) (v w : ℚ), value? x = some v → value? y = some w →
    |r - v| ≤ |r - w| ∧ (w ≠ v → |r - w| = |r - v| → x.toBits.toNat % 2 = 0)

theorem nonfinite_eq (x : Float) : (x.isNaN || x.isInf) = !x.isFinite := by
  show (x.toModel.unpack.isNaN || x.toModel.unpack.isInf) = !x.toModel.unpack.isFinite
  cases x.toModel.unpack <;> rfl

/-- A float is finite exactly when its exponent field is not all ones. -/
theorem isFinite_iff (x : Float) :
    x.isFinite = true ↔ x.toBits.toNat / 2 ^ 52 % 2 ^ 11 ≠ 2047 := by
  have h := unpack_nonfinite_iff x.toBits
  change (x.isNaN || x.isInf) = true ↔ _ at h
  rw [nonfinite_eq] at h
  rw [ne_eq, ← h]
  cases x.isFinite <;> decide

/-- The value of a finite float: its sign bit applied to the value of its decoded bits. -/
theorem value?_of_isFinite {x : Float} (hx : x.isFinite = true) :
    value? x = some (signed (Notation.signBit x) (Binary.ofBits x.toBits).val) := by
  rw [value?_eq, nonfinite_eq, hx]
  simp only [Bool.not_true, Bool.false_eq_true, if_false, Option.some.injEq]
  unfold signed Notation.signBit Binary.val
  simp only [Nat.pow_eq, decide_eq_true_eq]
  split_ifs <;> first | omega | ring

theorem isFinite_of_value? {x : Float} {v : ℚ} (h : value? x = some v) : x.isFinite = true := by
  rw [value?_eq, nonfinite_eq] at h
  cases hx : x.isFinite
  · rw [hx] at h
    cases h
  · rfl

/-- The float that a finite float's bits decode to satisfies the format's constraints. -/
theorem valid_of_isFinite {x : Float} (hx : x.isFinite = true) : (Binary.ofBits x.toBits).Valid :=
  Binary.valid_ofBits ((isFinite_iff x).1 hx)

theorem overflow_pos : (0 : ℚ) < 2 ^ 1024 - 2 ^ 970 :=
  sub_pos.2 (pow_lt_pow_right₀ (by norm_num) (by norm_num))

/-- The shortest decimal of a finite float, with the float's sign, reads back as that float. -/
theorem readsAs_shortest {x : Float} (hx : x.isFinite = true) :
    ReadsAs (signed (Notation.signBit x) (Decimal.shortest (Binary.ofBits x.toBits)).val) x := by
  have hb := valid_of_isFinite hx
  set b := Binary.ofBits x.toBits
  set ρ := (Decimal.shortest b).val
  have hρ : 0 ≤ ρ := Decimal.val_nonneg _
  rcases Nat.eq_zero_or_pos b.mantissa with hm0 | hm
  · -- zero is written as zero, and nothing is nearer to it
    have hρ0 : ρ = 0 := Binary.shortest_val_zero hm0
    refine ⟨hx, ?_, fun y v w hv _ => ?_⟩
    · rw [abs_signed _ hρ, hρ0]
      exact overflow_pos
    · rw [value?_of_isFinite hx, Option.some.injEq] at hv
      subst hv
      have hrv : signed (Notation.signBit x) ρ = signed (Notation.signBit x) b.val := by
        rw [hρ0, Binary.val_eq_zero hm0]
      rw [hrv, sub_self, abs_zero]
      exact ⟨abs_nonneg _, fun hne heq => absurd (sub_eq_zero.1 (abs_eq_zero.1 heq)).symm hne⟩
  have hhold := Binary.shortest_holds hb hm
  refine ⟨hx, ?_, fun y v w hv hw => ?_⟩
  · rw [abs_signed _ hρ]
    exact Binary.lt_overflow_of_holds hb hm hhold
  rw [value?_of_isFinite hx, Option.some.injEq] at hv
  have hy := isFinite_of_value? hw
  rw [value?_of_isFinite hy, Option.some.injEq] at hw
  subst hv hw
  obtain ⟨hle, htie⟩ := nearest_signed hb (valid_of_isFinite hy) hm hhold (Notation.signBit x)
    (Notation.signBit y)
  refine ⟨hle, fun hne heq => ?_⟩
  rw [← Binary.ofBits_mantissa_mod_two]
  exact htie hne heq

/-! ## Determined by sign and digits -/

theorem eq_of_toBits_eq {x y : Float} (h : x.toBits = y.toBits) : x = y := by
  obtain ⟨⟨a, ha⟩⟩ := x
  obtain ⟨⟨b, hb⟩⟩ := y
  change a = b at h
  subst h
  rfl

/-- A finite float is determined by its sign bit and the value of its shortest decimal. -/
theorem eq_of_shortest_val_eq {x y : Float} (hx : x.isFinite = true) (hy : y.isFinite = true)
    (hs : Notation.signBit x = Notation.signBit y)
    (h : (Decimal.shortest (Binary.ofBits x.toBits)).val =
      (Decimal.shortest (Binary.ofBits y.toBits)).val) : x = y := by
  have hb := Binary.eq_of_shortest_val_eq (valid_of_isFinite hx) (valid_of_isFinite hy) h
  refine eq_of_toBits_eq (Binary.ofBits_inj ?_ hb)
  have hx64 := x.toBits.toNat_lt
  have hy64 := y.toBits.toNat_lt
  unfold Notation.signBit at hs
  simp only [Nat.pow_eq, decide_eq_decide] at hs
  omega

end Number

end Lox
