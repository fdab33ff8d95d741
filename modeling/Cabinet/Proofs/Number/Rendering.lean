import Mathlib.Data.List.TakeWhile
import Cabinet.Number.Decimal
import Cabinet.Proofs.Number.KeyOrder
import Cabinet.Proofs.Text.Bytes

/-! Reading the texts of numbers in keys. Main statement: from zero up to `10 ^ 15` they have twenty
characters, are in the order of the numbers, and write these but for half of the last place. -/

namespace Cabinet

def Decimal.value (d : Decimal) : ℚ :=
  (if d.negative then -1 else 1) * (d.digits * 10 ^ d.exponent)

namespace unitText

open Text

variable {width units : Nat}

theorem toList_eq (width units : Nat) : (unitText width units).toList =
    (padded width (units / 10000)).toList ++ '.' :: (padded 4 (units % 10000)).toList := by
  simp [unitText]

theorem isDigit_or_eq_point {c : Char} (h : c ∈ (unitText width units).toList) :
    c.isDigit ∨ c = '.' := by
  rw [toList_eq, List.mem_append, List.mem_cons] at h
  rcases h with h | rfl | h
  · exact .inl (isDigit_of_mem_padded h)
  · exact .inr rfl
  · exact .inl (isDigit_of_mem_padded h)

theorem length_eq (hwidth : 0 < width) (h : units / 10000 < 10 ^ width) :
    (unitText width units).length = width + 5 := by
  rw [← String.length_toList, toList_eq, List.length_append, List.length_cons, length_places,
    length_padded hwidth h]

theorem toNat_lt {c : Char} (h : c ∈ (unitText width units).toList) : c.toNat < 128 := by
  rcases isDigit_or_eq_point h with hc | rfl
  · exact lt_of_le_of_lt (toNat_of_isDigit hc).2 (by decide)
  · decide

theorem ofDigits_eq (width units : Nat) : ofDigits ((padded width (units / 10000)).toList ++
    (padded 4 (units % 10000)).toList) = units := by
  have hdigits : ∀ c ∈ (padded width (units / 10000)).toList ++
      (padded 4 (units % 10000)).toList, c.isDigit := by
    intro c hc
    rcases List.mem_append.1 hc with hc | hc <;> exact isDigit_of_mem_padded hc
  rw [ofDigits, foldl_digits hdigits, Nat.ofDigitChars_append, ofDigitChars_padded,
    Nat.ofDigitChars_eq_ofDigitChars_zero, ofDigitChars_padded, length_places]
  omega

theorem mantissa?_eq (width units : Nat) :
    Decimal.mantissa? (unitText width units).toList = some (units, 4) := by
  have hdigits {width n : Nat} : ∀ c ∈ (padded width n).toList, isDigit c :=
    fun _ hc => isDigit_of_isDigit (isDigit_of_mem_padded hc)
  have hplaces : (padded 4 (units % 10000)).toList.all isDigit := List.all_eq_true.2 hdigits
  have hne : (padded width (units / 10000)).toList ++ (padded 4 (units % 10000)).toList ≠ [] := by
    intro hnil
    have hlength := length_places units
    rw [(List.append_eq_nil_iff.1 hnil).2] at hlength
    cases hlength
  have hpoint : isDigit '.' = false := by decide
  have htake : (unitText width units).toList.takeWhile isDigit =
      (padded width (units / 10000)).toList := by
    rw [toList_eq, List.takeWhile_append_of_pos hdigits,
      List.takeWhile_cons_of_neg (by simp [hpoint]), List.append_nil]
  have hdrop : (unitText width units).toList.dropWhile isDigit =
      '.' :: (padded 4 (units % 10000)).toList := by
    rw [toList_eq, List.dropWhile_append_of_pos hdigits,
      List.dropWhile_cons_of_neg (by simp [hpoint])]
  rw [Decimal.mantissa?]
  simp only [htake, hdrop]
  rw [if_pos ⟨hplaces, hne⟩, ofDigits_eq, length_places]

theorem magnitude?_eq (width units : Nat) :
    Decimal.magnitude? false (unitText width units).toList = some ⟨false, units, -4⟩ := by
  have hnone : ∀ c ∈ (unitText width units).toList, (c ≠ 'e' && c ≠ 'E') = true := by
    intro c hc
    rcases isDigit_or_eq_point hc with hdigit | rfl
    · have hnine := (toNat_of_isDigit hdigit).2
      have hbelow {d : Char} (hd : '9'.toNat < d.toNat) : c ≠ d :=
        fun h => absurd hnine (not_le.2 (h ▸ hd))
      simp [hbelow (d := 'e') (by decide), hbelow (d := 'E') (by decide)]
    · decide
  have htake := List.takeWhile_eq_self_iff.2 hnone
  have hdrop := List.dropWhile_eq_nil_iff.2 hnone
  rw [Decimal.magnitude?]
  simp only [htake, hdrop, mantissa?_eq]
  rfl

end unitText

namespace Binary64

open FixedPoint

variable {x y : Binary64}

theorem significand_lt (x : Binary64) : x.significand < 2 * fractions := by
  have hfraction : x.fraction < fractions := Nat.mod_lt _ (by decide)
  rw [significand]
  split <;> omega

theorem value_of_clear (hsign : x.negative = false) :
    x.value = x.numerator / x.denominator := by
  rw [value, hsign, if_neg Bool.false_ne_true, one_mul]

theorem value_le_iff_of_clear (hsx : x.negative = false) (hsy : y.negative = false) :
    x.value ≤ y.value ↔ x.numerator * y.denominator ≤ y.numerator * x.denominator := by
  have hx : (0 : ℚ) < x.denominator := Nat.cast_pos.2 x.denominator_pos
  have hy : (0 : ℚ) < y.denominator := Nat.cast_pos.2 y.denominator_pos
  rw [value_of_clear hsx, value_of_clear hsy, div_le_div_iff₀ hx hy]
  exact_mod_cast Iff.rfl

theorem value_lt_iff_of_clear (hsign : x.negative = false) {n : Nat} :
    x.value < n ↔ x.numerator < n * x.denominator := by
  have hden : (0 : ℚ) < x.denominator := Nat.cast_pos.2 x.denominator_pos
  rw [value_of_clear hsign, div_lt_iff₀ hden]
  exact_mod_cast Iff.rfl

theorem units_le_units (hsx : x.negative = false) (hsy : y.negative = false)
    (h : x.value ≤ y.value) (form : FixedPoint) : form.units x ≤ form.units y := by
  have hcross := (value_le_iff_of_clear hsx hsy).1 h
  refine Number.roundDiv_le_roundDiv x.denominator_pos y.denominator_pos ?_
  calc x.numerator * form.unitsPerOne * y.denominator
      = x.numerator * y.denominator * form.unitsPerOne := Nat.mul_right_comm ..
    _ ≤ y.numerator * x.denominator * form.unitsPerOne := Nat.mul_le_mul_right _ hcross
    _ = y.numerator * form.unitsPerOne * x.denominator := Nat.mul_right_comm ..

/-- Rounding does not reach `10 ^ 15` from below: a number close to it has no parts that are so fine,
and one with fine parts is far below. -/
theorem units_lt (hsign : x.negative = false) (h : x.value < 10 ^ 15) :
    keyNumber.units x < 10 ^ 19 := by
  have hnum : x.numerator < 10 ^ 15 * x.denominator :=
    (value_lt_iff_of_clear hsign).1 (by exact_mod_cast h)
  have hround : 2 * x.denominator * keyNumber.units x ≤
      2 * (x.numerator * 10000) + x.denominator :=
    (Number.roundDiv_bounds (x.numerator * 10000) x.denominator_pos).2
  by_contra hwide
  have hunits := Nat.mul_le_mul_left (2 * x.denominator) (Nat.not_lt.1 hwide)
  rcases Nat.lt_or_ge 13 (1075 - x.scale) with hfine | hcoarse
  · -- the number is less than `2 ^ 53 / 2 ^ 14`
    have hsmall : x.numerator < 2 * fractions := by
      have hshift : x.scale - 1075 = 0 := by omega
      rw [numerator, hshift, Nat.pow_eq, Nat.pow_zero, Nat.mul_one]
      exact x.significand_lt
    have hlarge : 2 ^ 14 ≤ x.denominator := Nat.pow_le_pow_right (by decide) hfine
    rw [fractions] at hsmall
    omega
  · -- the number is below `10 ^ 15` by `2 ^ -13` at least, more than half of the last place
    have hsmall : x.denominator ≤ 2 ^ 13 := Nat.pow_le_pow_right (by decide) hcoarse
    omega

theorem fitsKey_of_value_lt (hsign : x.negative = false) (h : x.value < 10 ^ 15) : x.FitsKey := by
  have hunits := units_lt hsign h
  rw [fitsKey_iff, signedUnits_of_clear hsign]
  omega

theorem unitsPerOne_keyNumber : keyNumber.unitsPerOne = 10000 := rfl

theorem abs_keyNumber_rounded_sub_value_le (x : Binary64) :
    |keyNumber.rounded x - x.value| ≤ 1 / 20000 := by
  have hhalf := abs_rounded_sub_value_le keyNumber x
  rw [unitsPerOne_keyNumber] at hhalf
  norm_num at hhalf ⊢
  exact hhalf

/-- Twenty ASCII characters that write the number but for half of the last of four places. -/
structure WrittenAs (x : Binary64) (s : String) : Prop where
  length : s.length = 20
  ascii : ∀ c ∈ s.toList, c.toNat < 128
  near : ∃ d, Decimal.magnitude? false s.toList = some d ∧ |d.value - x.value| ≤ 5 / 100000

theorem writtenAs_keyText (hx : x.isFinite) (hsign : x.negative = false) (h : x.value < 10 ^ 15) :
    x.WrittenAs (keyNumber.render x) := by
  have hunits := units_lt hsign h
  have htext := keyText_of_clear hx hsign
  refine ⟨?_, ?_, ⟨false, keyNumber.units x, -4⟩, ?_, ?_⟩
  · rw [htext, unitText.length_eq (by decide) (by omega)]
  · rw [htext]
    exact fun _ => unitText.toNat_lt
  · rw [htext, unitText.magnitude?_eq]
  · -- what is written is the number with its last place rounded
    have hvalue : Decimal.value ⟨false, keyNumber.units x, -4⟩ = keyNumber.rounded x := by
      rw [Decimal.value, rounded, signedUnits_of_clear hsign, unitsPerOne_keyNumber]
      norm_num [div_eq_mul_inv]
    rw [hvalue]
    exact (abs_keyNumber_rounded_sub_value_le x).trans (by norm_num)

theorem keyText_le (hx : x.isFinite) (hy : y.isFinite) (hsx : x.negative = false)
    (hsy : y.negative = false) (hle : x.value ≤ y.value) (h : y.value < 10 ^ 15) :
    keyNumber.render x ≤ keyNumber.render y := by
  have hunits := units_le_units hsx hsy hle keyNumber
  rw [keyText_le_iff_of_clear hx hy hsx hsy (fitsKey_of_value_lt hsx (hle.trans_lt h))
    (fitsKey_of_value_lt hsy h), signedUnits_of_clear hsx, signedUnits_of_clear hsy]
  omega

theorem keyText_lt (hx : x.isFinite) (hy : y.isFinite) (hsx : x.negative = false)
    (hsy : y.negative = false) (hgap : 1 / 10000 < y.value - x.value) (h : y.value < 10 ^ 15) :
    keyNumber.render x < keyNumber.render y := by
  have hclose := abs_le.1 (abs_keyNumber_rounded_sub_value_le x)
  have hclose' := abs_le.1 (abs_keyNumber_rounded_sub_value_le y)
  have hrounded : keyNumber.rounded x < keyNumber.rounded y := by linarith
  have hfits := fitsKey_of_value_lt hsx (by linarith)
  rwa [← not_le, keyText_le_iff_of_clear hy hx hsy hsx (fitsKey_of_value_lt hsy h) hfits,
    ← rounded_le_iff, not_le]

/-- From zero up to `10 ^ 15` the numbers are in the order of the bytes of their texts, which have one
length; only numbers that are a unit of the last place apart, or less, have the same text. -/
theorem keyTexts_in_order (hx : x.isFinite) (hy : y.isFinite) (hsx : x.negative = false)
    (hsy : y.negative = false) (hle : x.value ≤ y.value) (h : y.value < 10 ^ 15) :
    x.WrittenAs (keyNumber.render x) ∧ y.WrittenAs (keyNumber.render y) ∧
      Text.bytes (keyNumber.render x) ≤ Text.bytes (keyNumber.render y) ∧
      (1 / 10000 < y.value - x.value →
        Text.bytes (keyNumber.render x) < Text.bytes (keyNumber.render y)) := by
  refine ⟨writtenAs_keyText hx hsx (hle.trans_lt h), writtenAs_keyText hy hsy h,
    Text.bytes_le_iff.2 (keyText_le hx hy hsx hsy hle h), fun hgap => ?_⟩
  exact Text.bytes_lt_iff.2 (keyText_lt hx hy hsx hsy hgap h)

theorem keyTexts_in_order_carried :
    let carried : Binary64 := ⟨0x40F869FFFFD60E95⟩
    let last : Binary64 := ⟨0x430C6BF52633FFFF⟩
    carried.isFinite ∧ last.isFinite ∧ carried.negative = false ∧ last.negative = false ∧
      carried.value ≤ last.value ∧ last.value < 10 ^ 15 ∧
      keyNumber.render carried = "000000000100000.0000" ∧
      keyNumber.render last = "999999999999999.8750" ∧
      carried.WrittenAs (keyNumber.render carried) ∧ last.WrittenAs (keyNumber.render last) ∧
      Text.bytes (keyNumber.render carried) ≤ Text.bytes (keyNumber.render last) ∧
      (1 / 10000 < last.value - carried.value →
        Text.bytes (keyNumber.render carried) < Text.bytes (keyNumber.render last)) := by
  intro carried last
  have hle : carried.value ≤ last.value :=
    (value_le_iff_of_clear (by decide) (by decide)).2 (by decide +kernel)
  have hlast : last.value < 10 ^ 15 := by
    exact_mod_cast (value_lt_iff_of_clear (n := 10 ^ 15) (by decide)).2 (by decide +kernel)
  exact ⟨by decide, by decide, by decide, by decide, hle, hlast, by decide +kernel,
    by decide +kernel,
    keyTexts_in_order (by decide) (by decide) (by decide) (by decide) hle hlast⟩

end Binary64

end Cabinet
