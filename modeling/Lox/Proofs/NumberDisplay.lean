import Lox.Proofs.FloatReading
import Lox.Decimal.Notation
import Lox.Value
import Mathlib
/-!
# The display text of a number

A number is displayed as its literal text below `10 ^ 21`, and from there on as one digit, a
point, at least one more digit, `E` and the exponent of the leading digit. This module reads
both texts back: the digits of a positional text with its point (`pointValue`) and of a text
with an exponent (`textValue`) give exactly the shortest decimal of the float, which reads back
as the float itself (`readsAs_shortest`). A display text therefore tells its float apart from
every other finite float.

* `positional_value`, `scientific_eq`: the two shapes and the values they stand for.
* `ten_pow_21_le_shortest_iff`: the shortest decimal reaches `10 ^ 21` exactly when the float
  does, so the choice of shape follows the magnitude of the float.
* `display_number_form_and_injective`: the shape above `10 ^ 21` and its value, the literal text
  below, and that no two finite numbers share a display text.
-/

namespace Lox

namespace Decimal

/-! ## Digits -/

theorem digitText_eq (d : Decimal) : d.digitText = String.ofList (Nat.toDigits 10 d.digits) := by
  unfold digitText
  split
  · rename_i h
    rw [h, Nat.toDigits_zero]
  · rfl

theorem isDigit_of_mem_toDigits {n : ℕ} {c : Char} (h : c ∈ Nat.toDigits 10 n) :
    c.isDigit = true :=
  Nat.isDigit_of_mem_toDigits (by norm_num) (by norm_num) h

/-- The leading digit of a positive number is not `0`. -/
theorem head_toDigits_ne_zero {n : ℕ} (hn : 0 < n) {D : Char} {rest : List Char}
    (h : Nat.toDigits 10 n = D :: rest) : D ≠ '0' := by
  induction n using Nat.strong_induction_on generalizing rest with
  | _ n ih =>
    rw [Nat.toDigits_eq_if (by norm_num)] at h
    split at h
    · obtain ⟨rfl, -⟩ := List.cons.inj h
      rw [Ne, Nat.digitChar_eq_zero]
      omega
    · -- the leading digit is that of the number without its last digit
      obtain ⟨D', rest', h'⟩ :=
        List.exists_cons_of_ne_nil (Nat.toDigits_ne_nil (n := n / 10) (b := 10))
      rw [h', List.cons_append] at h
      obtain ⟨rfl, -⟩ := List.cons.inj h
      exact ih (n / 10) (by omega) (by omega) h'

theorem length_toDigits {n : ℕ} (hn : 0 < n) : (Nat.toDigits 10 n).length = digitCount n := by
  induction n using Nat.strong_induction_on with
  | _ n ih =>
    rw [Nat.toDigits_eq_if (by norm_num), digitCount_of_pos hn]
    split
    · rename_i hlt
      rw [Nat.div_eq_of_lt hlt, digitCount_zero]
      rfl
    · rw [List.length_append, ih (n / 10) (by omega) (by omega)]
      rfl

/-! ## Reading a text back -/

/-- The number a text of digits with at most one point stands for: its digits as one whole
number, divided by ten for every digit after the point. -/
def pointValue (l : List Char) : ℚ :=
  (Nat.ofDigitChars 10 (l.filter (· != '.')) 0 : ℚ) /
    10 ^ ((l.dropWhile (· != '.')).drop 1).length

/-- The number a text of digits, at most one point and an optional `E` with the digits of an
exponent stands for. -/
def textValue (l : List Char) : ℚ :=
  pointValue (l.takeWhile (· != 'E')) *
    10 ^ Nat.ofDigitChars 10 ((l.dropWhile (· != 'E')).drop 1) 0

/-- A separator absent from a text is passed over everywhere in it. -/
theorem bne_of_not_mem {l : List Char} {k : Char} (h : k ∉ l) : ∀ c ∈ l, (c != k) = true :=
  fun c hc => by simpa using fun e : c = k => h (e ▸ hc)

theorem pointValue_of_not_mem {l : List Char} (hl : '.' ∉ l) :
    pointValue l = Nat.ofDigitChars 10 l 0 := by
  rw [pointValue, List.filter_eq_self.2 (bne_of_not_mem hl),
    List.dropWhile_eq_nil_iff.2 (bne_of_not_mem hl)]
  simp

theorem pointValue_point {a b : List Char} (ha : '.' ∉ a) (hb : '.' ∉ b) :
    pointValue (a ++ '.' :: b) = (Nat.ofDigitChars 10 (a ++ b) 0 : ℚ) / 10 ^ b.length := by
  have hdrop : (a ++ '.' :: b).dropWhile (· != '.') = '.' :: b := by
    rw [List.dropWhile_append, List.dropWhile_eq_nil_iff.2 (bne_of_not_mem ha)]
    simp
  rw [pointValue, hdrop, List.filter_append, List.filter_eq_self.2 (bne_of_not_mem ha),
    List.filter_cons, List.filter_eq_self.2 (bne_of_not_mem hb)]
  simp

theorem textValue_of_not_mem {l : List Char} (hl : 'E' ∉ l) : textValue l = pointValue l := by
  rw [textValue, List.takeWhile_eq_self_iff.2 (bne_of_not_mem hl),
    List.dropWhile_eq_nil_iff.2 (bne_of_not_mem hl)]
  simp

theorem textValue_exponent {m e : List Char} (hm : 'E' ∉ m) :
    textValue (m ++ 'E' :: e) = pointValue m * 10 ^ Nat.ofDigitChars 10 e 0 := by
  have htake : (m ++ 'E' :: e).takeWhile (· != 'E') = m := by
    rw [List.takeWhile_append, List.takeWhile_eq_self_iff.2 (bne_of_not_mem hm)]
    simp
  have hdrop : (m ++ 'E' :: e).dropWhile (· != 'E') = 'E' :: e := by
    rw [List.dropWhile_append, List.dropWhile_eq_nil_iff.2 (bne_of_not_mem hm)]
    simp
  rw [textValue, htake, hdrop]
  rfl

/-! ## Positional texts -/

/-- Leading zeros add nothing to the digits after them. -/
theorem ofDigitChars_zeros_append (k : ℕ) (l : List Char) :
    Nat.ofDigitChars 10 (List.replicate k '0' ++ l) 0 = Nat.ofDigitChars 10 l 0 := by
  rw [Nat.ofDigitChars_append, Nat.ofDigitChars_replicate_zero, mul_zero]

/-- A character that is not a digit is not among digits. -/
theorem not_mem_of_digits {k : Char} (hk : k.isDigit = false) {l : List Char}
    (hl : ∀ c ∈ l, c.isDigit = true) : k ∉ l := fun h => by
  have := hl k h
  rw [hk] at this
  cases this

theorem not_mem_toDigits {n : ℕ} {k : Char} (hk : k.isDigit = false) : k ∉ Nat.toDigits 10 n :=
  not_mem_of_digits hk fun _ => isDigit_of_mem_toDigits

/-- A positional text is made of digits and at most one point. -/
theorem mem_positional {d : Decimal} {c : Char} (h : c ∈ d.positional.toList) :
    c.isDigit = true ∨ c = '.' := by
  unfold positional at h
  rw [digitText_eq] at h
  dsimp only at h
  split_ifs at h <;>
    simp only [String.toList_append, String.toList_ofList, List.mem_append, List.mem_replicate] at h
  · rcases h with h | ⟨-, rfl⟩
    · exact .inl (isDigit_of_mem_toDigits h)
    · exact .inl rfl
  · rcases h with (h | h) | h
    · exact .inl (isDigit_of_mem_toDigits (List.mem_of_mem_take h))
    · exact .inr (by simpa using h)
    · exact .inl (isDigit_of_mem_toDigits (List.mem_of_mem_drop h))
  · rcases h with (h | ⟨-, rfl⟩) | h
    · simp only [show "0.".toList = ['0', '.'] from rfl, List.mem_cons, List.not_mem_nil,
        or_false] at h
      rcases h with rfl | rfl
      · exact .inl rfl
      · exact .inr rfl
    · exact .inl rfl
    · exact .inl (isDigit_of_mem_toDigits h)

/-- Digits after the point: dividing by `10 ^ (-e)` scales by `10 ^ e`. -/
theorem div_ten_pow_toNat_neg {e : ℤ} (he : e ≤ 0) (a : ℚ) : a / 10 ^ (-e).toNat = a * 10 ^ e := by
  obtain ⟨n, rfl⟩ := Int.exists_eq_neg_ofNat he
  rw [neg_neg, Int.toNat_natCast, zpow_neg, zpow_natCast, div_eq_mul_inv]

/-- A positional text stands for exactly the decimal it writes. -/
theorem positional_value (d : Decimal) : pointValue d.positional.toList = d.val := by
  have hdot : '.' ∉ Nat.toDigits 10 d.digits := not_mem_toDigits rfl
  have hN := Nat.ofDigitChars_ten_toDigits (n := d.digits)
  unfold positional val
  rw [digitText_eq]
  dsimp only
  rw [String.length_ofList]
  split_ifs with he hb
  · -- whole: the digits, then `exponent` zeros
    lift d.exponent to ℕ using he with e
    rw [String.toList_append, String.toList_ofList, String.toList_ofList, pointValue_of_not_mem]
    · rw [Nat.ofDigitChars_append, Nat.ofDigitChars_replicate_zero, hN]
      push_cast
      simp [mul_comm]
    · simp only [List.mem_append, List.mem_replicate]
      rintro (h | ⟨-, h⟩)
      · exact hdot h
      · cases h
  · -- the point inside the digits
    set k := ((Nat.toDigits 10 d.digits).length + d.exponent).toNat
    have hk : (List.drop k (Nat.toDigits 10 d.digits)).length = (-d.exponent).toNat := by
      rw [List.length_drop]
      omega
    simp only [String.toList_append, String.toList_ofList]
    rw [show ".".toList = ['.'] from rfl, List.append_assoc, List.singleton_append,
      pointValue_point (fun h => hdot (List.mem_of_mem_take h))
        (fun h => hdot (List.mem_of_mem_drop h)), List.take_append_drop, hN, hk]
    exact div_ten_pow_toNat_neg (by omega) _
  · -- the point first, then zeros up to the digits
    set z := (-((Nat.toDigits 10 d.digits).length + d.exponent)).toNat
    have hz : (List.replicate z '0' ++ Nat.toDigits 10 d.digits).length = (-d.exponent).toNat := by
      rw [List.length_append, List.length_replicate]
      omega
    simp only [String.toList_append, String.toList_ofList]
    rw [show "0.".toList ++ List.replicate z '0' ++ Nat.toDigits 10 d.digits =
        ['0'] ++ '.' :: (List.replicate z '0' ++ Nat.toDigits 10 d.digits) from rfl,
      pointValue_point (by simp) (by simpa using hdot), hz,
      ← List.replicate_one, ← List.append_assoc, ← List.replicate_add,
      ofDigitChars_zeros_append, hN]
    exact div_ten_pow_toNat_neg (by omega) _


/-! ## Texts with an exponent -/

/-- A decimal with digits in scientific notation with a point always: its leading digit, a
point, the other digits (a `0` when there are none), the mark and the exponent of the leading
digit; read as `D.F · 10 ^ X`, it stands for the decimal. -/
theorem scientific_eq (d : Decimal) (hd : 0 < d.digits) (mark : String) :
    ∃ D F, d.scientific mark true =
        String.ofList (D :: '.' :: F) ++ mark ++ toString d.leadingExponent ∧
      D.isDigit = true ∧ D ≠ '0' ∧ F ≠ [] ∧ (∀ c ∈ F, c.isDigit = true) ∧
      (Nat.ofDigitChars 10 (D :: F) 0 : ℚ) * 10 ^ (d.leadingExponent - F.length) = d.val := by
  obtain ⟨D, rest, hds⟩ :=
    List.exists_cons_of_ne_nil (Nat.toDigits_ne_nil (n := d.digits) (b := 10))
  have hD := head_toDigits_ne_zero hd hds
  have hlen := length_toDigits hd
  have hN := Nat.ofDigitChars_ten_toDigits (n := d.digits)
  have hdig : ∀ c ∈ D :: rest, c.isDigit = true := fun c hc =>
    isDigit_of_mem_toDigits (hds ▸ hc)
  rw [hds] at hN hlen
  unfold scientific leadingExponent val
  rw [digitText_eq, if_neg (show ¬d.digits = 0 by omega), ← hlen]
  simp only [String.toList_ofList, hds, List.drop_succ_cons, List.drop_zero, List.take_succ_cons,
    List.take_zero]
  cases rest with
  | nil =>
    -- one digit: the point is followed by a single `0`
    refine ⟨D, ['0'], ?_, hdig D (by simp), hD, by simp, by simp, ?_⟩
    · simp only [List.isEmpty_nil, if_true]
      rw [show String.ofList [D] ++ ".0" = String.ofList [D, '.', '0'] by
        rw [← String.toList_inj]
        simp only [String.toList_append, String.toList_ofList]
        rfl]
    · have h10 : Nat.ofDigitChars 10 [D, '0'] 0 = 10 * Nat.ofDigitChars 10 [D] 0 := by
        simp [Nat.ofDigitChars_cons, Nat.ofDigitChars_nil]
      rw [h10, hN]
      push_cast
      rw [show ((([D].length : ℕ) : ℤ) - 1 + d.exponent - (['0'].length : ℕ)) = d.exponent - 1 by
        simp, zpow_sub_one₀ (by norm_num)]
      field_simp
  | cons c rest =>
    refine ⟨D, c :: rest, ?_, hdig D (by simp), hD, by simp,
      fun c' hc' => hdig c' (by simp [hc']), ?_⟩
    · simp only [List.isEmpty_cons, Bool.false_eq_true, if_false]
      rw [show String.ofList [D] ++ "." ++ String.ofList (c :: rest) =
          String.ofList (D :: '.' :: c :: rest) by
        rw [← String.toList_inj]
        simp only [String.toList_append, String.toList_ofList]
        rfl]
    · rw [hN]
      congr 2
      simp only [List.length_cons]
      push_cast
      ring

theorem toString_of_nonneg {e : ℤ} (he : 0 ≤ e) :
    toString e = String.ofList (Nat.toDigits 10 e.toNat) := by
  lift e to ℕ using he
  rfl

/-- The scientific text of a decimal of at least one stands for the decimal. -/
theorem textValue_scientific {d : Decimal} (hd : 0 < d.digits) (he : 0 ≤ d.leadingExponent) :
    textValue (d.scientific "E" true).toList = d.val := by
  obtain ⟨D, F, htext, hD, -, -, hF, hval⟩ := scientific_eq d hd "E"
  have hE : 'E' ∉ D :: '.' :: F := by
    simp only [List.mem_cons, not_or]
    refine ⟨fun h => ?_, by decide, not_mem_of_digits rfl hF⟩
    rw [← h] at hD
    exact absurd hD (by decide)
  rw [htext, toString_of_nonneg he]
  simp only [String.toList_append, String.toList_ofList]
  rw [show "E".toList = ['E'] from rfl, List.append_assoc, List.singleton_append,
    textValue_exponent hE, Nat.ofDigitChars_ten_toDigits,
    show D :: '.' :: F = [D] ++ '.' :: F from rfl,
    pointValue_point (not_mem_of_digits rfl (by simpa using hD)) (not_mem_of_digits rfl hF),
    ← hval]
  simp only [List.singleton_append]
  rw [zpow_sub₀ (by norm_num), zpow_natCast, show (10 : ℚ) ^ d.leadingExponent.toNat =
    10 ^ d.leadingExponent by rw [← zpow_natCast, Int.toNat_of_nonneg he]]
  ring

theorem textValue_positional (d : Decimal) : textValue d.positional.toList = d.val := by
  rw [textValue_of_not_mem, positional_value]
  intro h
  rcases mem_positional h with h | h
  · cases h
  · cases h

theorem minus_not_mem_positional (d : Decimal) : '-' ∉ d.positional.toList := by
  intro h
  rcases mem_positional h with h | h
  · cases h
  · cases h

theorem minus_not_mem_scientific {d : Decimal} (hd : 0 < d.digits) (he : 0 ≤ d.leadingExponent) :
    '-' ∉ (d.scientific "E" true).toList := by
  obtain ⟨D, F, htext, hD, -, -, hF, -⟩ := scientific_eq d hd "E"
  rw [htext, toString_of_nonneg he]
  simp only [String.toList_append, String.toList_ofList, List.mem_append, List.mem_cons, not_or]
  refine ⟨⟨⟨fun h => ?_, by decide, not_mem_of_digits rfl hF⟩, by decide⟩,
    not_mem_toDigits rfl⟩
  rw [← h] at hD
  exact absurd hD (by decide)

/-- The exponent form is used exactly for decimals of at least `10 ^ 21`. -/
theorem scientific_iff (d : Decimal) :
    d.digits ≠ 0 ∧ (21 : ℤ) ≤ d.leadingExponent ↔ 10 ^ 21 ≤ d.val := by
  constructor
  · rintro ⟨hd, hL⟩
    obtain ⟨hlo, -⟩ := leadingExponent_bounds (Nat.pos_of_ne_zero hd)
    calc (10 : ℚ) ^ 21 = 10 ^ (21 : ℤ) := by norm_num
      _ ≤ 10 ^ d.leadingExponent := zpow_le_zpow_right₀ (by norm_num) hL
      _ ≤ d.val := hlo
  · intro h
    have hd : d.digits ≠ 0 := by
      intro h0
      rw [val, h0] at h
      norm_num at h
    obtain ⟨-, hhi⟩ := leadingExponent_bounds (Nat.pos_of_ne_zero hd)
    refine ⟨hd, ?_⟩
    have : (10 : ℚ) ^ (21 : ℤ) < 10 ^ (d.leadingExponent + 1) := by
      calc (10 : ℚ) ^ (21 : ℤ) = 10 ^ 21 := by norm_num
        _ ≤ d.val := h
        _ < 10 ^ (d.leadingExponent + 1) := hhi
    have := (zpow_lt_zpow_iff_right₀ (by norm_num : (1 : ℚ) < 10)).1 this
    omega

end Decimal

namespace Binary

variable {b : Binary}

/-- `10 ^ 21` is a float, `7629394531250000 · 2 ^ 17`. -/
theorem valid_ten_pow_21 : (⟨7629394531250000, 17, false⟩ : Binary).Valid :=
  ⟨by norm_num, by norm_num, by norm_num, fun _ => by norm_num, by norm_num⟩

theorem val_ten_pow_21 : (⟨7629394531250000, 17, false⟩ : Binary).val = 10 ^ 21 := by
  norm_num [val]

/-- The shortest decimal of a float reaches `10 ^ 21` exactly when the float does: below it,
the float `10 ^ 21` lies a whole spacing above, beyond the rounding interval. -/
theorem ten_pow_21_le_shortest_iff (hb : b.Valid) :
    10 ^ 21 ≤ (Decimal.shortest b).val ↔ 10 ^ 21 ≤ b.val := by
  constructor
  · intro h
    by_contra hge
    have hlt := lt_of_not_ge hge
    rcases Nat.eq_zero_or_pos b.mantissa with h0 | hm
    · rw [shortest_val_zero h0] at h
      norm_num at h
    have hup : b.val + 2 ^ b.exponent ≤ 10 ^ 21 := by
      have := hb.gap valid_ten_pow_21 (by rw [val_ten_pow_21]; exact hlt.ne')
      rw [val_ten_pow_21] at this
      refine this.resolve_left fun h' => ?_
      have := gapBelow_pos b
      linarith
    obtain ⟨-, hh⟩ := (holds_iff hm).1 (shortest_holds hb hm)
    have hp : (0 : ℚ) < 2 ^ b.exponent := by positivity
    rcases hh with hh | ⟨-, hh⟩ <;> linarith
  · intro h
    have hm : 0 < b.mantissa := by
      by_contra h0
      rw [val_eq_zero (by omega)] at h
      norm_num at h
    exact_mod_cast le_shortest_val hm (e := 21) (by exact_mod_cast h)

end Binary

namespace Number

variable {x y : Float}

theorem not_nan_inf_of_isFinite (hx : x.isFinite = true) : x.isNaN = false ∧ x.isInf = false := by
  have h := nonfinite_eq x
  rw [hx, Bool.not_true, Bool.or_eq_false_iff] at h
  exact h

/-- The display text of a finite float: its sign, then its shortest decimal, with an exponent
from `10 ^ 21` on. -/
theorem displayText_of_isFinite (hx : x.isFinite = true) :
    displayText x = (if Notation.signBit x then "-" else "") ++
      (if 10 ^ 21 ≤ (Decimal.shortest (Binary.ofBits x.toBits)).val then
        (Decimal.shortest (Binary.ofBits x.toBits)).scientific "E" true
      else (Decimal.shortest (Binary.ofBits x.toBits)).positional) := by
  obtain ⟨hnan, hinf⟩ := not_nan_inf_of_isFinite hx
  unfold displayText Notation.render
  rw [if_neg (by rw [hnan]; decide), if_neg (by rw [hinf]; decide)]
  dsimp only [displayNotation]
  exact congrArg _ (if_congr (Decimal.scientific_iff _) rfl rfl)

/-- The literal text of a finite float: its sign, then its shortest decimal positionally. -/
theorem literalText_of_isFinite (hx : x.isFinite = true) :
    literalText x = (if Notation.signBit x then "-" else "") ++
      (Decimal.shortest (Binary.ofBits x.toBits)).positional := by
  obtain ⟨hnan, hinf⟩ := not_nan_inf_of_isFinite hx
  unfold literalText Notation.render
  rw [if_neg (by rw [hnan]; decide), if_neg (by rw [hinf]; decide)]
  rfl

/-- NaN and the infinities are displayed as their literal texts. -/
theorem displayText_of_not_isFinite (hx : x.isFinite = false) : displayText x = literalText x := by
  have h := nonfinite_eq x
  rw [hx, Bool.not_false] at h
  unfold displayText literalText Notation.render
  by_cases hnan : x.isNaN = true
  · rw [if_pos hnan, if_pos hnan]
    rfl
  · have hinf : x.isInf = true := by
      rw [Bool.not_eq_true] at hnan
      rwa [hnan, Bool.false_or] at h
    rw [if_neg hnan, if_neg hnan]
    dsimp only
    rw [if_pos hinf, if_pos hinf]
    rfl

/-- A float of at least `10 ^ 21` is displayed as its sign, one digit other than `0`, a point, at
least one more digit, `E` and an exponent of at least `21`; read as `D.F · 10 ^ X`, the text
stands for the shortest decimal of the float. -/
theorem displayText_of_ge (hx : x.isFinite = true) (h : 10 ^ 21 ≤ (Binary.ofBits x.toBits).val) :
    ∃ (D : Char) (F : List Char) (X : ℕ),
      displayText x =
        (if Notation.signBit x then "-" else "") ++ String.ofList (D :: '.' :: F) ++ "E" ++
          toString X ∧
      D.isDigit = true ∧ D ≠ '0' ∧ F ≠ [] ∧ (∀ c ∈ F, c.isDigit = true) ∧ 21 ≤ X ∧
      (Nat.ofDigitChars 10 (D :: F) 0 : ℚ) * 10 ^ ((X : ℤ) - F.length) =
        (Decimal.shortest (Binary.ofBits x.toBits)).val := by
  have hd := (Binary.ten_pow_21_le_shortest_iff (valid_of_isFinite hx)).2 h
  obtain ⟨hd0, hL⟩ := (Decimal.scientific_iff _).2 hd
  obtain ⟨D, F, htext, hD, hD0, hF, hFd, hval⟩ :=
    Decimal.scientific_eq _ (Nat.pos_of_ne_zero hd0) "E"
  obtain ⟨X, hX⟩ := Int.eq_ofNat_of_zero_le (by omega :
    0 ≤ (Decimal.shortest (Binary.ofBits x.toBits)).leadingExponent)
  rw [hX] at htext hval hL
  refine ⟨D, F, X, ?_, hD, hD0, hF, hFd, by omega, hval⟩
  rw [displayText_of_isFinite hx, if_pos hd, htext]
  simp only [String.append_assoc]
  rfl

/-- Below `10 ^ 21`, a finite float is displayed as its literal text. -/
theorem displayText_of_lt (hx : x.isFinite = true) (h : (Binary.ofBits x.toBits).val < 10 ^ 21) :
    displayText x = literalText x := by
  have hd : ¬10 ^ 21 ≤ (Decimal.shortest (Binary.ofBits x.toBits)).val := fun hd => by
    have := (Binary.ten_pow_21_le_shortest_iff (valid_of_isFinite hx)).1 hd
    linarith
  rw [displayText_of_isFinite hx, literalText_of_isFinite hx, if_neg hd]

/-- A display text without its sign: the text of a finite float's shortest decimal, which it
stands for. -/
theorem displayText_split (hx : x.isFinite = true) :
    ∃ body : String, displayText x = (if Notation.signBit x then "-" else "") ++ body ∧
      '-' ∉ body.toList ∧
      Decimal.textValue body.toList = (Decimal.shortest (Binary.ofBits x.toBits)).val := by
  rw [displayText_of_isFinite hx]
  by_cases hd : 10 ^ 21 ≤ (Decimal.shortest (Binary.ofBits x.toBits)).val
  · obtain ⟨hd0, hL⟩ := (Decimal.scientific_iff _).2 hd
    rw [if_pos hd]
    exact ⟨_, rfl, Decimal.minus_not_mem_scientific (Nat.pos_of_ne_zero hd0) (by omega),
      Decimal.textValue_scientific (Nat.pos_of_ne_zero hd0) (by omega)⟩
  · rw [if_neg hd]
    exact ⟨_, rfl, Decimal.minus_not_mem_positional _, Decimal.textValue_positional _⟩

/-- A sign in front of a text without a minus sign gives both back. -/
theorem sign_append_inj {s t : Bool} {a b : String} (ha : '-' ∉ a.toList) (hb : '-' ∉ b.toList)
    (h : (if s then "-" else "") ++ a = (if t then "-" else "") ++ b) : s = t ∧ a = b := by
  have hl := congrArg String.toList h
  simp only [String.toList_append] at hl
  cases s <;> cases t <;>
    simp only [Bool.false_eq_true, if_false, if_true, show "-".toList = ['-'] from rfl,
      String.toList_empty, List.nil_append, List.singleton_append, List.cons.injEq,
      true_and] at hl
  · exact ⟨rfl, String.toList_inj.1 hl⟩
  · exact absurd (hl ▸ List.mem_cons_self) ha
  · exact absurd (hl.symm ▸ List.mem_cons_self) hb
  · exact ⟨rfl, String.toList_inj.1 hl⟩

/-- Two finite floats with the same display text are the same float. -/
theorem displayText_inj (hx : x.isFinite = true) (hy : y.isFinite = true)
    (h : displayText x = displayText y) : x = y := by
  obtain ⟨a, hxa, hma, hva⟩ := displayText_split hx
  obtain ⟨b, hyb, hmb, hvb⟩ := displayText_split hy
  rw [hxa, hyb] at h
  obtain ⟨hs, hab⟩ := sign_append_inj hma hmb h
  exact eq_of_shortest_val_eq hx hy hs (by rw [← hva, ← hvb, hab])

theorem abs_of_value? {v : ℚ} (hv : value? x = some v) :
    x.isFinite = true ∧ |v| = (Binary.ofBits x.toBits).val := by
  have hx := isFinite_of_value? hv
  rw [value?_of_isFinite hx, Option.some.injEq] at hv
  exact ⟨hx, by rw [← hv, abs_signed _ (Binary.val_nonneg _)]⟩

end Number

/-- How a number is displayed. A finite number of magnitude at least `10 ^ 21` is displayed as
`-?D.FEX`: one digit other than `0`, a point, at least one more digit, `E` and an exponent of at
least `21`, and `±D.F · 10 ^ X` reads back as the number. Every other number, finite below
`10 ^ 21`, NaN or infinite, is displayed as its literal text. No two finite numbers share a
display text. -/
theorem display_number_form_and_injective (x : Float) :
    (∀ v, Number.value? x = some v → 10 ^ 21 ≤ |v| →
      ∃ (neg : Bool) (D : Char) (F : List Char) (X : ℕ),
        Value.display (.number x) =
          (if neg then "-" else "") ++ String.ofList (D :: '.' :: F) ++ "E" ++ toString X ∧
        D.isDigit = true ∧ D ≠ '0' ∧ F ≠ [] ∧ (∀ c ∈ F, c.isDigit = true) ∧ 21 ≤ X ∧
        Number.ReadsAs
          (Number.signed neg ((Nat.ofDigitChars 10 (D :: F) 0 : ℚ) * 10 ^ ((X : ℤ) - F.length))) x) ∧
    ((∀ v, Number.value? x = some v → |v| < 10 ^ 21) →
      Value.display (.number x) = Number.literalText x) ∧
    ∀ y, x.isFinite = true → y.isFinite = true →
      Value.display (.number x) = Value.display (.number y) → x = y := by
  refine ⟨fun v hv hge => ?_, fun hlt => ?_, fun y hx hy h => Number.displayText_inj hx hy h⟩
  · obtain ⟨hx, habs⟩ := Number.abs_of_value? hv
    obtain ⟨D, F, X, htext, hD, hD0, hF, hFd, hX, hval⟩ :=
      Number.displayText_of_ge hx (habs ▸ hge)
    refine ⟨Notation.signBit x, D, F, X, htext, hD, hD0, hF, hFd, hX, ?_⟩
    rw [hval]
    exact Number.readsAs_shortest hx
  · -- NaN and the infinities have no value; a finite number has its own
    cases hx : x.isFinite
    · exact Number.displayText_of_not_isFinite hx
    · have hv := hlt _ (Number.value?_of_isFinite hx)
      rw [Number.abs_signed _ (Binary.val_nonneg _)] at hv
      exact Number.displayText_of_lt hx hv

theorem display_number_at_powers_of_ten :
    (∃ (neg : Bool) (D : Char) (F : List Char) (X : ℕ),
      Value.display (.number 1e22) =
        (if neg then "-" else "") ++ String.ofList (D :: '.' :: F) ++ "E" ++ toString X ∧
      21 ≤ X) ∧
    Value.display (.number 1e20) = Number.literalText 1e20 := by
  have h22 : Number.value? (1e22 : Float) = some (10 ^ 22) := by
    rw [Number.value?_of_isFinite (by decide),
      show (1e22 : Float).toBits = 0x4480F0CF064DD592 by decide,
      show Binary.ofBits 0x4480F0CF064DD592 = ⟨4768371582031250, 21, false⟩ by decide,
      show Notation.signBit (1e22 : Float) = false by decide]
    norm_num [Binary.val]
  have h20 : Number.value? (1e20 : Float) = some (10 ^ 20) := by
    rw [Number.value?_of_isFinite (by decide),
      show (1e20 : Float).toBits = 0x4415AF1D78B58C40 by decide,
      show Binary.ofBits 0x4415AF1D78B58C40 = ⟨6103515625000000, 14, false⟩ by decide,
      show Notation.signBit (1e20 : Float) = false by decide]
    norm_num [Binary.val]
  obtain ⟨neg, D, F, X, htext, -, -, -, -, hX, -⟩ :=
    (display_number_form_and_injective 1e22).1 _ h22 (by norm_num)
  refine ⟨⟨neg, D, F, X, htext, hX⟩,
    (display_number_form_and_injective 1e20).2.1 fun v hv => ?_⟩
  rw [h20, Option.some.injEq] at hv
  rw [← hv]
  norm_num

end Lox
