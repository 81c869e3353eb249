import Lox.Decimal.Notation
import Mathlib
/-!
# The exact arithmetic behind shortest decimals

The search for the shortest decimal of a float works on natural numbers only: it compares and
rounds scaled fractions by cross-multiplying. This module gives each of those helpers its
meaning over `ℚ`, so that later proofs reason about values and never about the scaling.

* `Decimal.val`: the rational that `digits · 10 ^ exponent` stands for.
* `digitCount_bounds`: `10 ^ (k - 1) ≤ n < 10 ^ k` for the digit count `k` of `n > 0`.
* `compareScaled_eq`, `floorScaled_bounds`: the comparison and the floor of
  `(num / den) / 10 ^ s`; `le_floorScaled_mul`: on a grid below the leading place, the floor
  keeps that place.
* `decimalExponent_bounds`: the decimal exponent of a positive fraction.
* `normalize_val`: dropping trailing zeros keeps the value.
-/

namespace Lox

namespace Decimal

/-- The number a decimal stands for. -/
def val (d : Decimal) : ℚ := (d.digits : ℚ) * 10 ^ d.exponent

theorem val_nonneg (d : Decimal) : 0 ≤ d.val := by
  unfold val
  positivity

/-! ## Digit counts -/

theorem digitCount_zero : digitCount 0 = 0 := by
  rw [digitCount, if_pos rfl]

theorem digitCount_of_pos {n : ℕ} (hn : 0 < n) : digitCount n = digitCount (n / 10) + 1 := by
  rw [digitCount, if_neg (by omega)]

/-- A positive number has `k` digits exactly when it lies in `[10 ^ (k - 1), 10 ^ k)`. -/
theorem digitCount_bounds {n : ℕ} (hn : 0 < n) :
    10 ^ (digitCount n - 1) ≤ n ∧ n < 10 ^ digitCount n := by
  induction n using Nat.strong_induction_on with
  | _ n ih =>
    rw [digitCount_of_pos hn]
    by_cases hsmall : n < 10
    · rw [Nat.div_eq_of_lt hsmall, digitCount_zero]
      simp only [Nat.zero_add, Nat.sub_self, pow_zero, pow_one]
      omega
    · -- one digit more than `n / 10`, which is positive
      obtain ⟨hlo, hhi⟩ := ih (n / 10) (by omega) (by omega)
      have hk : 0 < digitCount (n / 10) := by
        rw [digitCount_of_pos (by omega : 0 < n / 10)]
        omega
      obtain ⟨k, hk'⟩ : ∃ k, digitCount (n / 10) = k + 1 :=
        ⟨_, (Nat.succ_pred_eq_of_pos hk).symm⟩
      rw [hk'] at hlo hhi ⊢
      simp only [Nat.add_sub_cancel, pow_succ] at hlo hhi ⊢
      omega

theorem digitCount_pos {n : ℕ} (hn : 0 < n) : 0 < digitCount n := by
  rw [digitCount_of_pos hn]
  omega

/-- The leading digit of a decimal with digits stands at `leadingExponent`. -/
theorem leadingExponent_bounds {d : Decimal} (hd : 0 < d.digits) :
    (10 : ℚ) ^ d.leadingExponent ≤ d.val ∧ d.val < 10 ^ (d.leadingExponent + 1) := by
  obtain ⟨hlo, hhi⟩ := digitCount_bounds hd
  obtain ⟨k, hk⟩ : ∃ k, digitCount d.digits = k + 1 :=
    ⟨_, (Nat.succ_pred_eq_of_pos (digitCount_pos hd)).symm⟩
  rw [hk, Nat.add_sub_cancel] at hlo
  rw [hk] at hhi
  have hlo' : ((10 : ℚ) ^ k) ≤ d.digits := by exact_mod_cast hlo
  have hhi' : (d.digits : ℚ) < 10 ^ (k + 1) := by exact_mod_cast hhi
  have hpos : (0 : ℚ) < 10 ^ d.exponent := by positivity
  have hlead : d.leadingExponent = k + d.exponent := by
    unfold leadingExponent
    rw [hk]
    push_cast
    ring
  unfold val
  rw [hlead, zpow_add₀ (by norm_num), add_right_comm, zpow_add₀ (by norm_num), zpow_natCast]
  constructor
  · exact mul_le_mul_of_nonneg_right hlo' hpos.le
  · rw [show ((k : ℤ) + 1) = ((k + 1 : ℕ) : ℤ) by push_cast; ring, zpow_natCast]
    exact mul_lt_mul_of_pos_right hhi' hpos

/-! ## Dropping trailing zeros -/

theorem normalize_val (digits : ℕ) (exponent : ℤ) :
    (normalize digits exponent).val = digits * 10 ^ exponent := by
  induction digits using Nat.strong_induction_on generalizing exponent with
  | _ n ih =>
    rw [normalize]
    split
    · rename_i h
      -- the last digit is a zero, moved into the exponent
      rw [ih (n / 10) (by omega) (exponent + 1), zpow_add_one₀ (by norm_num)]
      have hn : ((n / 10 : ℕ) : ℚ) * 10 = n := by
        exact_mod_cast Nat.div_mul_cancel (Nat.dvd_of_mod_eq_zero h.2)
      rw [← hn]
      ring
    · rfl

theorem normalize_zero (exponent : ℤ) : normalize 0 exponent = ⟨0, exponent⟩ := by
  rw [normalize, if_neg (by omega)]

/-! ## Scaled comparison and floor -/

/-- Two comparisons agree when their `<` and `=` agree. -/
theorem compare_congr {α β : Type} [LinearOrder α] [LinearOrder β] {a b : α} {x y : β}
    (hlt : a < b ↔ x < y) (heq : a = b ↔ x = y) : compare a b = compare x y := by
  rw [compare_iff]
  cases h : compare x y
  · exact hlt.2 (compare_lt_iff_lt.1 h)
  · exact heq.2 (compare_eq_iff_eq.1 h)
  · have hyx := compare_gt_iff_gt.1 h
    exact lt_of_le_of_ne (not_lt.1 fun hab => lt_asymm hyx (hlt.1 hab))
      fun hba => hyx.ne (heq.1 hba.symm).symm

theorem compareScaled_eq (d : ℕ) (s : ℤ) (num : ℕ) {den : ℕ} (hden : 0 < den) :
    compareScaled d s num den = compare ((d : ℚ) * 10 ^ s) ((num : ℚ) / den) := by
  have hden' : (0 : ℚ) < den := by exact_mod_cast hden
  unfold compareScaled
  split
  · rename_i hs
    -- a nonnegative scale multiplies the digits
    lift s to ℕ using hs
    simp only [Int.toNat_natCast, Nat.pow_eq, zpow_natCast]
    refine compare_congr ?_ ?_
    · rw [lt_div_iff₀ hden']
      exact_mod_cast Iff.rfl
    · rw [eq_div_iff hden'.ne']
      exact_mod_cast Iff.rfl
  · rename_i hs
    -- a negative scale divides them, so both sides are cross-multiplied
    obtain ⟨n, rfl⟩ := Int.exists_eq_neg_ofNat (by omega : s ≤ 0)
    have hp : (0 : ℚ) < 10 ^ n := by positivity
    simp only [neg_neg, Int.toNat_natCast, Nat.pow_eq, zpow_neg, zpow_natCast]
    rw [← div_eq_mul_inv]
    refine compare_congr ?_ ?_
    · rw [div_lt_div_iff₀ hp hden']
      exact_mod_cast Iff.rfl
    · rw [div_eq_div_iff hp.ne' hden'.ne']
      exact_mod_cast Iff.rfl

/-- The floor of a scaled fraction, as a pair of bounds. -/
theorem floorScaled_bounds (num : ℕ) {den : ℕ} (hden : 0 < den) (s : ℤ) :
    (floorScaled num den s : ℚ) * 10 ^ s ≤ (num : ℚ) / den ∧
      (num : ℚ) / den < (floorScaled num den s + 1) * 10 ^ s := by
  have hden' : (0 : ℚ) < den := by exact_mod_cast hden
  unfold floorScaled
  split
  · rename_i hs
    lift s to ℕ using hs
    simp only [Int.toNat_natCast, Nat.pow_eq, zpow_natCast]
    have hp : 0 < 10 ^ s := Nat.pow_pos (by norm_num)
    have hlo : num / (den * 10 ^ s) * (den * 10 ^ s) ≤ num := Nat.div_mul_le_self _ _
    have hhi : num < (den * 10 ^ s) * (num / (den * 10 ^ s) + 1) :=
      Nat.lt_mul_div_succ _ (Nat.mul_pos hden hp)
    rw [le_div_iff₀ hden', div_lt_iff₀ hden']
    constructor
    · have : ((num / (den * 10 ^ s) * (den * 10 ^ s) : ℕ) : ℚ) ≤ num := by exact_mod_cast hlo
      push_cast at this
      linarith
    · have : (num : ℚ) < (((den * 10 ^ s) * (num / (den * 10 ^ s) + 1) : ℕ) : ℚ) := by
        exact_mod_cast hhi
      push_cast at this
      linarith
  · rename_i hs
    obtain ⟨n, rfl⟩ := Int.exists_eq_neg_ofNat (by omega : s ≤ 0)
    simp only [neg_neg, Int.toNat_natCast, Nat.pow_eq, zpow_neg, zpow_natCast]
    have hp : (0 : ℚ) < 10 ^ n := by positivity
    have hlo : num * 10 ^ n / den * den ≤ num * 10 ^ n := Nat.div_mul_le_self _ _
    have hhi : num * 10 ^ n < den * (num * 10 ^ n / den + 1) := Nat.lt_mul_div_succ _ hden
    rw [← div_eq_mul_inv, ← div_eq_mul_inv, div_le_div_iff₀ hp hden',
      div_lt_div_iff₀ hden' hp]
    constructor
    · have : ((num * 10 ^ n / den * den : ℕ) : ℚ) ≤ ((num * 10 ^ n : ℕ) : ℚ) := by
        exact_mod_cast hlo
      push_cast at this
      linarith
    · have : ((num * 10 ^ n : ℕ) : ℚ) < ((den * (num * 10 ^ n / den + 1) : ℕ) : ℚ) := by
        exact_mod_cast hhi
      push_cast at this
      linarith

theorem floorScaled_zero (den : ℕ) (s : ℤ) : floorScaled 0 den s = 0 := by
  unfold floorScaled
  split <;> simp

/-- On a grid below the leading place `10 ^ e` of a fraction, the grid point below the fraction
is still at least `10 ^ e`. -/
theorem le_floorScaled_mul {num den : ℕ} (hden : 0 < den) {e s : ℤ}
    (he : (10 : ℚ) ^ e ≤ (num : ℚ) / den) (hs : s ≤ e) :
    (10 : ℚ) ^ e ≤ floorScaled num den s * 10 ^ s := by
  obtain ⟨-, hhi⟩ := floorScaled_bounds num hden s
  obtain ⟨k, hk⟩ := Int.eq_ofNat_of_zero_le (sub_nonneg.2 hs)
  have hp : (0 : ℚ) < 10 ^ s := by positivity
  have hek : (10 : ℚ) ^ e = ((10 ^ k : ℕ) : ℚ) * 10 ^ s := by
    rw [show e = k + s by omega, zpow_add₀ (by norm_num), zpow_natCast]
    push_cast
    rfl
  -- the whole number `10 ^ k` lies below the floor plus one, so not above the floor
  have hlt : 10 ^ k < floorScaled num den s + 1 := by
    have : ((10 ^ k : ℕ) : ℚ) < floorScaled num den s + 1 :=
      lt_of_mul_lt_mul_right (by rw [← hek]; linarith) hp.le
    exact_mod_cast this
  rw [hek]
  gcongr
  exact_mod_cast Nat.lt_succ_iff.mp hlt

/-! ## The decimal exponent of a fraction -/

/-- `decimalExponent num den` is the exponent of the leading decimal digit of `num / den`. -/
theorem decimalExponent_bounds {num den : ℕ} (hnum : 0 < num) (hden : 0 < den) :
    (10 : ℚ) ^ decimalExponent num den ≤ (num : ℚ) / den ∧
      (num : ℚ) / den < 10 ^ (decimalExponent num den + 1) := by
  have hden' : (0 : ℚ) < den := by exact_mod_cast hden
  unfold decimalExponent
  split
  · rename_i hle
    -- at least one: `10 ^ k` is the leading place of the whole part `q`
    set q := num / den
    have hq : 0 < q := Nat.div_pos hle hden
    obtain ⟨hlo, hhi⟩ := digitCount_bounds hq
    obtain ⟨k, hk⟩ : ∃ k, digitCount q = k + 1 :=
      ⟨_, (Nat.succ_pred_eq_of_pos (digitCount_pos hq)).symm⟩
    rw [hk, Nat.add_sub_cancel] at hlo
    rw [hk] at hhi
    have hqlo : q * den ≤ num := Nat.div_mul_le_self _ _
    have hqhi : num < den * (q + 1) := Nat.lt_mul_div_succ _ hden
    rw [hk, show ((k + 1 : ℕ) : ℤ) - 1 = k by push_cast; ring, zpow_natCast,
      show (k : ℤ) + 1 = ((k + 1 : ℕ) : ℤ) by push_cast; ring, zpow_natCast,
      le_div_iff₀ hden', div_lt_iff₀ hden']
    constructor
    · have : 10 ^ k * den ≤ num := le_trans (Nat.mul_le_mul_right _ hlo) hqlo
      exact_mod_cast this
    · have : num < 10 ^ (k + 1) * den := by
        calc num < den * (q + 1) := hqhi
          _ ≤ den * 10 ^ (k + 1) := Nat.mul_le_mul_left _ hhi
          _ = 10 ^ (k + 1) * den := Nat.mul_comm _ _
      exact_mod_cast this
  · rename_i hlt
    -- below one: `t = (den - 1) / num` has as many digits as zeros follow the point
    set t := (den - 1) / num
    have ht : 0 < t := Nat.div_pos (by omega) hnum
    obtain ⟨hlo, hhi⟩ := digitCount_bounds ht
    obtain ⟨k, hk⟩ : ∃ k, digitCount t = k + 1 :=
      ⟨_, (Nat.succ_pred_eq_of_pos (digitCount_pos ht)).symm⟩
    rw [hk, Nat.add_sub_cancel] at hlo
    rw [hk] at hhi
    have htlo : t * num ≤ den - 1 := Nat.div_mul_le_self _ _
    have hthi : den - 1 < num * (t + 1) := Nat.lt_mul_div_succ _ hnum
    have hp : (0 : ℚ) < 10 ^ (k + 1) := by positivity
    have hp' : (0 : ℚ) < 10 ^ k := by positivity
    rw [hk, zpow_neg, zpow_natCast, show -((k + 1 : ℕ) : ℤ) + 1 = -(k : ℤ) by push_cast; ring,
      zpow_neg, zpow_natCast, ← one_div, ← one_div, div_le_div_iff₀ hp hden',
      div_lt_div_iff₀ hden' hp']
    constructor
    · have : den ≤ num * 10 ^ (k + 1) := by
        calc den ≤ num * (t + 1) := by omega
          _ ≤ num * 10 ^ (k + 1) := Nat.mul_le_mul_left _ hhi
      rw [one_mul]
      exact_mod_cast this
    · have : num * 10 ^ k < den := by
        calc num * 10 ^ k ≤ num * t := Nat.mul_le_mul_left _ hlo
          _ = t * num := Nat.mul_comm _ _
          _ < den := by omega
      rw [one_mul]
      exact_mod_cast this

end Decimal

end Lox
