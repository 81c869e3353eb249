import Lox.Proofs.DecimalArithmetic
/-!
# The shortest decimal lies in the rounding interval

`Decimal.shortest` looks for a decimal on the grids of `1, 2, …, 17` significant digits inside
the rounding interval of a float. This module shows that it always finds one: every decimal it
can return lies in the interval (`search_holds`), and the 17-digit grid is fine enough that the
search never falls through to its last resort (`pickOnGrid_ne_none`).

* `Binary.Valid`: the mantissa and exponent that the bits of a finite float decode to.
* `Interval.Holds`: a number lies in an interval, its ends counted when it is closed.
* `interval_lowVal`, `interval_highVal`: the interval reaches halfway to each neighbour.
* `shortest_holds`: the shortest decimal of a positive finite float lies in its interval.
* `le_shortest_val`, `shortest_digits_zero`: it keeps the leading decimal place of the float,
  and zero is written without digits.
-/

namespace Lox

namespace Binary

/-- The number a binary float stands for. -/
def val (b : Binary) : ℚ := (b.mantissa : ℚ) * 2 ^ b.exponent

/-- The mantissa and exponent of a finite float: 53 bits at most, the exponent in range, the
leading bit set above the smallest exponent, and the float below half as far away exactly at
the bottom of a binade above the subnormals. -/
structure Valid (b : Binary) : Prop where
  mantissa_lt : b.mantissa < 2 ^ 53
  exponent_ge : -1074 ≤ b.exponent
  exponent_le : b.exponent ≤ 971
  normal : -1074 < b.exponent → 2 ^ 52 ≤ b.mantissa
  narrow : b.narrowBelow = true ↔ b.mantissa = 2 ^ 52 ∧ -1074 < b.exponent

/-- Every bit pattern whose exponent field is not all ones decodes to a valid pair. -/
theorem valid_ofBits {bits : UInt64} (h : bits.toNat / 2 ^ 52 % 2 ^ 11 ≠ 2047) :
    (ofBits bits).Valid := by
  have hf : bits.toNat % 2 ^ 52 < 2 ^ 52 := Nat.mod_lt _ (by norm_num)
  have he : bits.toNat / 2 ^ 52 % 2 ^ 11 < 2 ^ 11 := Nat.mod_lt _ (by norm_num)
  unfold ofBits
  simp only [Nat.pow_eq]
  split
  · -- a subnormal float, or a zero
    refine ⟨?_, ?_, ?_, ?_, ?_⟩ <;> dsimp only
    · omega
    · exact le_refl _
    · norm_num
    · exact fun h => absurd h (lt_irrefl _)
    · simp
  · -- a normal float, with the leading bit above the fraction
    refine ⟨?_, ?_, ?_, ?_, ?_⟩ <;> dsimp only
    · omega
    · omega
    · omega
    · exact fun _ => by omega
    · simp only [decide_eq_true_eq]
      omega

/-- How far the float below lies: half the usual spacing at the bottom of a binade. -/
def gapBelow (b : Binary) : ℚ := if b.narrowBelow then 2 ^ (b.exponent - 1) else 2 ^ b.exponent

theorem gapBelow_pos (b : Binary) : 0 < b.gapBelow := by
  unfold gapBelow
  split <;> positivity

theorem gapBelow_le (b : Binary) : b.gapBelow ≤ 2 ^ b.exponent := by
  unfold gapBelow
  split
  · exact zpow_le_zpow_right₀ (by norm_num) (by omega)
  · exact le_refl _

/-! ## The rounding interval -/

theorem two_pow_toNat_div (q : ℤ) : ((2 : ℚ) ^ q.toNat) / 2 ^ (-q).toNat = 2 ^ q := by
  rcases le_total 0 q with hq | hq
  · lift q to ℕ using hq
    simp
  · obtain ⟨n, rfl⟩ := Int.exists_eq_neg_ofNat hq
    simp [zpow_neg]

theorem interval_den_pos (b : Binary) : 0 < b.interval.den := by
  unfold interval
  simp only [Nat.pow_eq]
  positivity

/-- The scale shared by the three points of the interval. -/
theorem interval_scale (b : Binary) (n : ℕ) :
    ((n * Nat.pow 2 b.exponent.toNat : ℕ) : ℚ) / (4 * Nat.pow 2 (-b.exponent).toNat : ℕ) =
      n / 4 * 2 ^ b.exponent := by
  rw [← two_pow_toNat_div]
  simp only [Nat.pow_eq]
  push_cast
  ring

theorem interval_valueVal (b : Binary) :
    (b.interval.value : ℚ) / b.interval.den = b.val := by
  unfold interval val
  rw [interval_scale]
  push_cast
  ring

theorem interval_lowVal {b : Binary} (hm : 0 < b.mantissa) :
    (b.interval.low : ℚ) / b.interval.den = b.val - b.gapBelow / 2 := by
  unfold interval val gapBelow
  rw [interval_scale]
  split
  · rw [Nat.cast_sub (by omega), zpow_sub₀ (by norm_num)]
    push_cast
    ring
  · rw [Nat.cast_sub (by omega)]
    push_cast
    ring

theorem interval_highVal (b : Binary) :
    (b.interval.high : ℚ) / b.interval.den = b.val + 2 ^ b.exponent / 2 := by
  unfold interval val
  rw [interval_scale]
  push_cast
  ring

theorem interval_closed (b : Binary) : b.interval.closed = true ↔ b.mantissa % 2 = 0 := by
  simp [interval]

/-- `r` lies in the interval, its ends counted when the interval is closed. -/
def Interval.Holds (i : Interval) (r : ℚ) : Prop :=
  ((i.low : ℚ) / i.den < r ∨ i.closed = true ∧ (i.low : ℚ) / i.den = r) ∧
    (r < (i.high : ℚ) / i.den ∨ i.closed = true ∧ r = (i.high : ℚ) / i.den)

/-- The membership test of the search decides `Holds`. -/
theorem Interval.contains_iff {i : Interval} (hden : 0 < i.den) (d : ℕ) (s : ℤ) :
    i.contains d s = true ↔ i.Holds (d * 10 ^ s) := by
  unfold contains Holds
  rw [Decimal.compareScaled_eq d s i.low hden, Decimal.compareScaled_eq d s i.high hden]
  -- each end of the interval is passed, met or missed
  cases hl : compare ((d : ℚ) * 10 ^ s) ((i.low : ℚ) / i.den) <;>
    cases hh : compare ((d : ℚ) * 10 ^ s) ((i.high : ℚ) / i.den) <;>
    simp only [compare_lt_iff_lt, compare_eq_iff_eq, compare_gt_iff_gt] at hl hh <;>
    grind

/-! ## The search -/

namespace Interval

variable {i : Interval}

/-- The grid point picked is one that the interval holds, the one below the value or above. -/
theorem pickOnGrid_some {s : ℤ} {d : ℕ} (h : i.pickOnGrid s = some d) :
    Decimal.floorScaled i.value i.den s ≤ d ∧ i.contains d s = true := by
  unfold pickOnGrid at h
  dsimp only at h
  split at h
  · split at h <;> cases h <;> exact ⟨by omega, by assumption⟩
  · cases h
    exact ⟨le_rfl, by assumption⟩
  · cases h
    exact ⟨by omega, by assumption⟩
  · cases h

/-- Nothing is picked only when neither grid point around the value is held. -/
theorem not_contains_of_pickOnGrid {s : ℤ} (h : i.pickOnGrid s = none) :
    i.contains (Decimal.floorScaled i.value i.den s) s = false ∧
      i.contains (Decimal.floorScaled i.value i.den s + 1) s = false := by
  unfold pickOnGrid at h
  dsimp only at h
  split at h
  · split at h <;> cases h
  · cases h
  · cases h
  · constructor <;> assumption

/-- On a grid finer than the interval is wide, one of the two grid points around a value inside
the interval lies in it. -/
theorem pickOnGrid_ne_none (hden : 0 < i.den) {s : ℤ}
    (hlow : (i.low : ℚ) / i.den < (i.value : ℚ) / i.den)
    (hhigh : (i.value : ℚ) / i.den < (i.high : ℚ) / i.den)
    (hwide : (10 : ℚ) ^ s < (i.high : ℚ) / i.den - (i.low : ℚ) / i.den) :
    i.pickOnGrid s ≠ none := by
  intro h
  obtain ⟨h₁, h₂⟩ := not_contains_of_pickOnGrid h
  obtain ⟨hfl, hfl'⟩ := Decimal.floorScaled_bounds i.value hden s
  rw [← Bool.not_eq_true, contains_iff hden] at h₁ h₂
  push_cast at h₂
  -- the point below misses the low end, the point above the high end: the grid is too coarse
  have hbelow : (Decimal.floorScaled i.value i.den s : ℚ) * 10 ^ s ≤ (i.low : ℚ) / i.den := by
    by_contra hc
    exact h₁ ⟨Or.inl (lt_of_not_ge hc), Or.inl (lt_of_le_of_lt hfl hhigh)⟩
  have habove :
      (i.high : ℚ) / i.den ≤ ((Decimal.floorScaled i.value i.den s : ℚ) + 1) * 10 ^ s := by
    by_contra hc
    exact h₂ ⟨Or.inl (lt_trans hlow hfl'), Or.inl (lt_of_not_ge hc)⟩
  nlinarith

/-- The search returns a grid point picked on one of the grids `e - 16, …, e`, or, when not even
the finest grid has one, the point below the value on that grid. -/
theorem search_cases (e : ℤ) : ∀ fuel ≤ 16,
    (∃ s d, s ≤ e ∧ i.pickOnGrid s = some d ∧
        i.search e (fuel + 1) = Decimal.normalize d s) ∨
      (i.pickOnGrid (e - 16) = none ∧ i.search e (fuel + 1) =
        Decimal.normalize (Decimal.floorScaled i.value i.den (e - 16)) (e - 16)) := by
  intro fuel hfuel
  induction fuel with
  | zero =>
    rw [search, show e + 1 - ((17 - 0 : ℕ) : ℤ) = e - 16 by omega]
    cases hp : i.pickOnGrid (e - 16) with
    | none => exact .inr ⟨rfl, rfl⟩
    | some d => exact .inl ⟨e - 16, d, by omega, hp, rfl⟩
  | succ fuel ih =>
    rw [search]
    cases hp : i.pickOnGrid (e + 1 - ((17 - (fuel + 1) : ℕ) : ℤ)) with
    | none => exact ih (by omega)
    | some d => exact .inl ⟨_, d, by omega, hp, rfl⟩

/-- When the finest grid has a point in the interval, the search returns a point of the
interval. -/
theorem search_holds (hden : 0 < i.den) {e : ℤ} (h : i.pickOnGrid (e - 16) ≠ none) :
    i.Holds (i.search e 17).val := by
  rcases search_cases e 16 le_rfl with ⟨s, d, -, hp, hs⟩ | ⟨hp, -⟩
  · rw [hs, Decimal.normalize_val, ← contains_iff hden]
    exact (pickOnGrid_some hp).2
  · exact absurd hp h

/-- Every grid the search tries lies below the leading place `10 ^ e` of the value, so what it
returns is at least `10 ^ e`. -/
theorem le_search_val (hden : 0 < i.den) {e : ℤ}
    (he : (10 : ℚ) ^ e ≤ (i.value : ℚ) / i.den) :
    (10 : ℚ) ^ e ≤ (i.search e 17).val := by
  rcases search_cases e 16 le_rfl with ⟨s, d, hs, hp, heq⟩ | ⟨-, heq⟩
  · rw [heq, Decimal.normalize_val]
    calc (10 : ℚ) ^ e ≤ Decimal.floorScaled i.value i.den s * 10 ^ s :=
          Decimal.le_floorScaled_mul hden he hs
      _ ≤ d * 10 ^ s := by
          gcongr
          exact_mod_cast (pickOnGrid_some hp).1
  · rw [heq, Decimal.normalize_val]
    exact Decimal.le_floorScaled_mul hden he (by omega)

/-- A closed interval from zero holds zero, and of the two grid points around zero it picks zero
itself. -/
theorem pickOnGrid_of_value_zero (hden : 0 < i.den) (hv : i.value = 0) (hl : i.low = 0)
    (hh : 0 < i.high) (hc : i.closed = true) (s : ℤ) : i.pickOnGrid s = some 0 := by
  have h0 : i.contains 0 s = true := by
    rw [contains_iff hden]
    refine ⟨Or.inr ⟨hc, by simp [hl]⟩, Or.inl ?_⟩
    simp only [Nat.cast_zero, zero_mul]
    positivity
  unfold pickOnGrid
  dsimp only
  rw [hv, Decimal.floorScaled_zero, h0]
  cases h1 : i.contains (0 + 1) s
  · rfl
  · dsimp only
    rw [if_pos]
    rw [Decimal.compareScaled_eq _ _ _ hden, compare_gt_iff_gt]
    simp only [mul_zero, zero_add, Nat.cast_one, one_mul, Nat.cast_zero, zero_div]
    positivity

end Interval

/-- The 17-digit grid is finer than the rounding interval of every positive finite float:
the interval is at least three quarters of `2 ^ exponent` wide, and a value below
`2 ^ 53 · 2 ^ exponent` has a leading place below `10 ^ 16 · 2 ^ exponent`. -/
theorem grid_finer {b : Binary} (hb : b.Valid) (hm : 0 < b.mantissa) {e : ℤ}
    (he : (10 : ℚ) ^ e ≤ b.val) :
    (10 : ℚ) ^ (e - 16) < (b.interval.high : ℚ) / b.interval.den -
      (b.interval.low : ℚ) / b.interval.den := by
  rw [interval_highVal, interval_lowVal hm]
  have hp : (0 : ℚ) < 2 ^ b.exponent := by positivity
  have hstep : (10 : ℚ) ^ (e - 16) ≤ b.val / 10 ^ 16 := by
    rw [zpow_sub₀ (by norm_num), zpow_ofNat]
    exact div_le_div_of_nonneg_right he (by norm_num)
  refine lt_of_le_of_lt hstep ?_
  unfold val gapBelow
  split
  · -- at the bottom of a binade the interval is three quarters wide
    rename_i hn
    have hm52 : b.mantissa = 2 ^ 52 := (hb.narrow.1 hn).1
    rw [hm52, zpow_sub_one₀ (by norm_num)]
    push_cast
    nlinarith
  · have hm53 : (b.mantissa : ℚ) < 2 ^ 53 := by exact_mod_cast hb.mantissa_lt
    nlinarith

/-- The shortest decimal of a positive finite float lies in its rounding interval. -/
theorem shortest_holds {b : Binary} (hb : b.Valid) (hm : 0 < b.mantissa) :
    b.interval.Holds (Decimal.shortest b).val := by
  have hden := interval_den_pos b
  have hv : 0 < b.interval.value := by
    unfold interval
    simp only [Nat.pow_eq]
    positivity
  obtain ⟨he, -⟩ := Decimal.decimalExponent_bounds hv hden
  rw [interval_valueVal] at he
  have hgap := gapBelow_pos b
  have hp : (0 : ℚ) < 2 ^ b.exponent := by positivity
  refine Interval.search_holds hden (Interval.pickOnGrid_ne_none hden ?_ ?_ (grid_finer hb hm he))
  · rw [interval_lowVal hm, interval_valueVal]
    linarith
  · rw [interval_highVal, interval_valueVal]
    linarith

/-- The shortest decimal of a positive float keeps its leading decimal place: a float of at
least `10 ^ e` is written as a decimal of at least `10 ^ e`. -/
theorem le_shortest_val {b : Binary} (hm : 0 < b.mantissa) {e : ℤ}
    (he : (10 : ℚ) ^ e ≤ b.val) :
    (10 : ℚ) ^ e ≤ (Decimal.shortest b).val := by
  have hden := interval_den_pos b
  have hv : 0 < b.interval.value := by
    unfold interval
    simp only [Nat.pow_eq]
    positivity
  obtain ⟨hE, hE'⟩ := Decimal.decimalExponent_bounds hv hden
  rw [interval_valueVal] at hE hE'
  -- `e` is at most the leading place `E` of the value, and the search keeps `E`
  have heE : e ≤ Decimal.decimalExponent b.interval.value b.interval.den := by
    have : (10 : ℚ) ^ e < 10 ^ (Decimal.decimalExponent b.interval.value b.interval.den + 1) :=
      lt_of_le_of_lt he hE'
    have := (zpow_lt_zpow_iff_right₀ (by norm_num : (1 : ℚ) < 10)).1 this
    omega
  calc (10 : ℚ) ^ e ≤ 10 ^ Decimal.decimalExponent b.interval.value b.interval.den :=
        zpow_le_zpow_right₀ (by norm_num) heE
    _ ≤ (Decimal.shortest b).val := by
        unfold Decimal.shortest
        exact Interval.le_search_val hden (by rw [interval_valueVal]; exact hE)

/-- The shortest decimal of zero has no digits. -/
theorem shortest_digits_zero {b : Binary} (hm : b.mantissa = 0) :
    (Decimal.shortest b).digits = 0 := by
  have hpick := Interval.pickOnGrid_of_value_zero (i := b.interval) (interval_den_pos b)
    (by simp [interval, hm]) (by simp [interval, hm]) (by simp [interval]) (by simp [interval, hm])
  unfold Decimal.shortest
  rcases Interval.search_cases (i := b.interval) _ 16 le_rfl with
    ⟨s, d, -, hp, heq⟩ | ⟨hp, -⟩
  · rw [hpick] at hp
    cases hp
    rw [heq, Decimal.normalize_zero]
  · rw [hpick] at hp
    cases hp

end Binary

end Lox
