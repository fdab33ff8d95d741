import Mathlib.Algebra.Order.Floor.Ring
import Mathlib.Data.Rat.Floor
import Mathlib.Tactic.FieldSimp
import Mathlib.Tactic.Linarith
import Mathlib.Tactic.Positivity
import Cabinet.Proofs.Number.KeyText

/-! Which ranges of numbers the texts in keys compare like the numbers. Main statement: those above zero
that are within fifteen places, those of a single negative number, and empty ones from zero down. -/

namespace Cabinet

theorem Number.abs_div_sub_div_le {u p n d : ℚ} (hp : 0 < p) (hd : 0 < d)
    (hlow : 2 * (n * p) ≤ 2 * d * u + d) (hhigh : 2 * d * u ≤ 2 * (n * p) + d) :
    |u / p - n / d| ≤ 1 / (2 * p) := by
  have hdifference : u / p - n / d = (2 * d * u - 2 * (n * p)) / (2 * p * d) := by
    field_simp
  rw [hdifference, abs_div, abs_of_pos (by positivity : 0 < 2 * p * d),
    div_le_div_iff₀ (by positivity) (by positivity)]
  calc |2 * d * u - 2 * (n * p)| * (2 * p) ≤ d * (2 * p) := by
        gcongr
        exact abs_le.2 ⟨by linarith, by linarith⟩
    _ = 1 * (2 * p * d) := by ring

namespace Binary64

def value (x : Binary64) : ℚ := (if x.negative then -1 else 1) * (x.numerator / x.denominator)

end Binary64

namespace FixedPoint

variable {form : FixedPoint} {x y : Binary64}

def signedUnits (form : FixedPoint) (x : Binary64) : Int :=
  if x.negative then -(form.units x) else form.units x

def rounded (form : FixedPoint) (x : Binary64) : ℚ := form.signedUnits x / form.unitsPerOne

theorem unitsPerOne_pos (form : FixedPoint) : 0 < form.unitsPerOne := Nat.pow_pos (by decide)

theorem rounded_le_iff : form.rounded x ≤ form.rounded y ↔ form.signedUnits x ≤ form.signedUnits y := by
  have hpos : (0 : ℚ) < form.unitsPerOne := Nat.cast_pos.2 form.unitsPerOne_pos
  rw [rounded, rounded, div_le_div_iff_of_pos_right hpos, Int.cast_le]

theorem rounded_lt_iff {n : Int} :
    form.rounded x < n ↔ form.signedUnits x < n * form.unitsPerOne := by
  have hpos : (0 : ℚ) < form.unitsPerOne := Nat.cast_pos.2 form.unitsPerOne_pos
  rw [rounded, div_lt_iff₀ hpos]
  exact_mod_cast Iff.rfl

theorem lt_rounded_iff {n : Int} :
    n < form.rounded x ↔ n * form.unitsPerOne < form.signedUnits x := by
  have hpos : (0 : ℚ) < form.unitsPerOne := Nat.cast_pos.2 form.unitsPerOne_pos
  rw [rounded, lt_div_iff₀ hpos]
  exact_mod_cast Iff.rfl

theorem floor_rounded (form : FixedPoint) (x : Binary64) :
    ⌊form.rounded x⌋ = form.signedUnits x / form.unitsPerOne :=
  Rat.floor_intCast_div_natCast _ _

theorem abs_rounded_sub_value_le (form : FixedPoint) (x : Binary64) :
    |form.rounded x - x.value| ≤ 1 / (2 * form.unitsPerOne) := by
  have hone : (0 : ℚ) < form.unitsPerOne := Nat.cast_pos.2 form.unitsPerOne_pos
  have hden : (0 : ℚ) < x.denominator := Nat.cast_pos.2 x.denominator_pos
  obtain ⟨hlow, hhigh⟩ := Number.roundDiv_bounds (x.numerator * form.unitsPerOne) x.denominator_pos
  have hlow' : (2 : ℚ) * (x.numerator * form.unitsPerOne) ≤
      2 * x.denominator * form.units x + x.denominator := by exact_mod_cast hlow
  have hhigh' : (2 : ℚ) * x.denominator * form.units x ≤
      2 * (x.numerator * form.unitsPerOne) + x.denominator := by exact_mod_cast hhigh
  -- the sign goes out of the difference
  have hsign : form.rounded x - x.value = (if x.negative then -1 else 1) *
      ((form.units x : ℚ) / form.unitsPerOne - x.numerator / x.denominator) := by
    rw [rounded, signedUnits, Binary64.value]
    split <;> push_cast <;> ring
  have hunit : |(if x.negative then -1 else 1 : ℚ)| = 1 := by
    cases x.negative <;> simp
  rw [hsign, abs_mul, hunit, one_mul]
  exact Number.abs_div_sub_div_le hone hden hlow' hhigh'

end FixedPoint

open FixedPoint

namespace Binary64

variable {x y : Binary64}

theorem isNaN_eq_false (hx : x.isFinite) : x.isNaN = false := by
  simp only [isFinite, decide_eq_true_iff] at hx
  simp [isNaN, hx]

theorem keyText_eq (hx : x.isFinite) : keyNumber.render x =
    signText x ++ unitText (15 - (signText x).length) (keyNumber.units x) := by
  have hplaces : (Text.padded 4 (keyNumber.units x % 10000)).length = 4 := by
    rw [← String.length_toList, unitText.length_places]
  have hmagnitude : keyNumber.magnitudeText x = Text.decimal (keyNumber.units x / 10000) ++ "." ++
      Text.padded 4 (keyNumber.units x % 10000) := by
    rw [magnitudeText, isNaN_eq_false hx, hx]
    rfl
  have hzeros : 20 - ((signText x).length + (keyNumber.magnitudeText x).length) =
      15 - (signText x).length - (Nat.toDigits 10 (keyNumber.units x / 10000)).length := by
    have hpoint : ".".length = 1 := by decide
    rw [hmagnitude, String.length_append, String.length_append, hplaces, hpoint, Text.decimal,
      String.length_ofList]
    omega
  have hwidth : keyNumber.width = 20 := rfl
  simp only [render, hwidth, hzeros]
  simp only [hmagnitude, unitText, Text.padded, Text.decimal, String.ofList_append,
    String.append_assoc]

theorem keyText_of_clear (hx : x.isFinite) (hsign : x.negative = false) :
    keyNumber.render x = unitText 15 (keyNumber.units x) := by
  rw [keyText_eq hx, signText, hsign]
  rfl

theorem keyText_of_set (hx : x.isFinite) (hsign : x.negative = true) :
    keyNumber.render x = "-" ++ unitText 14 (keyNumber.units x) := by
  rw [keyText_eq hx, signText, hsign, isNaN_eq_false hx]
  rfl

theorem ofNat_significand (field significand : Nat) (hfield : 0 < field) (hfield' : field < 0x7FF)
    (hlow : fractions ≤ significand) (hhigh : significand < 2 * fractions) :
    let x := ofNat false ((field - 1) * fractions + significand)
    x.isFinite ∧ x.negative = false ∧ x.scale = field ∧ x.significand = significand := by
  intro x
  simp only [fractions] at hlow hhigh
  have hbits : x.bits.toNat = (field - 1) * fractions + significand := by
    simp only [x, ofNat, fractions, UInt64.toNat_ofNat', Bool.false_eq_true, if_false]
    omega
  have hfield'' : x.field = field := by
    rw [Binary64.field, hbits, fractions]
    omega
  have hfraction : x.fraction = significand - fractions := by
    rw [fraction, hbits, fractions]
    omega
  refine ⟨?_, ?_, ?_, ?_⟩
  · rw [isFinite, hfield'']
    exact decide_eq_true (by omega)
  · rw [negative, hbits, fractions]
    exact decide_eq_false (by omega)
  · rw [scale, hfield'']
    omega
  · rw [Binary64.significand, hfield'', hfraction, if_neg (by omega), fractions]
    omega

theorem signedUnits_zero (sign : Bool) : keyNumber.signedUnits (ofNat sign 0) = 0 := by
  have hsignificand : (ofNat sign 0).significand = 0 := by cases sign <;> decide
  have hunits : keyNumber.units (ofNat sign 0) = 0 := by
    have hround := Number.roundDiv_mul_right 0 (ofNat sign 0).denominator_pos
    rw [Nat.zero_mul] at hround
    rw [units, numerator, hsignificand, Nat.zero_mul, Nat.zero_mul, hround]
  rw [signedUnits, hunits]
  cases (ofNat sign 0).negative <;> rfl

theorem isFinite_zero (sign : Bool) : (ofNat sign 0).isFinite := by cases sign <;> decide

theorem exists_whole {n : Nat} (hlow : 10 ^ 15 ≤ n) (hhigh : n < 10 ^ 16) (heven : n % 2 = 0) :
    ∃ x : Binary64, x.isFinite ∧ x.negative = false ∧ keyNumber.units x = n * 10000 := by
  have hone : keyNumber.unitsPerOne = 10000 := rfl
  -- below `2 ^ 53` the significand is a multiple of the number
  have hsmall (k : Nat) (hk : k ≤ 3) (hn : fractions ≤ n * 2 ^ k) (hn' : n * 2 ^ k < 2 * fractions) :
      ∃ x : Binary64, x.isFinite ∧ x.negative = false ∧ keyNumber.units x = n * 10000 := by
    obtain ⟨hfinite, hsign, hscale, hsignificand⟩ :=
      ofNat_significand (1075 - k) _ (by omega) (by omega) hn hn'
    refine ⟨_, hfinite, hsign, ?_⟩
    have hshift : 1075 - (1075 - k) = k := by omega
    have hnone : 1075 - k - 1075 = 0 := by omega
    rw [units, numerator, denominator, hscale, hsignificand, hone, hshift, hnone, Nat.pow_eq,
      Nat.pow_eq, Nat.pow_zero, Nat.mul_one, Nat.mul_right_comm]
    exact Number.roundDiv_mul_right _ (Nat.two_pow_pos k)
  simp only [fractions] at hsmall
  by_cases h50 : n < 2 ^ 50
  · exact hsmall 3 (by decide) (by omega) (by omega)
  by_cases h51 : n < 2 ^ 51
  · exact hsmall 2 (by decide) (by omega) (by omega)
  by_cases h52 : n < 2 ^ 52
  · exact hsmall 1 (by decide) (by omega) (by omega)
  by_cases h53 : n < 2 ^ 53
  · exact hsmall 0 (by decide) (by omega) (by omega)
  obtain ⟨hfinite, hsign, hscale, hsignificand⟩ := ofNat_significand 1076 (n / 2)
    (by decide) (by decide) (by simp only [fractions]; omega)
    (by simp only [fractions]; omega)
  refine ⟨_, hfinite, hsign, ?_⟩
  have hunits : n / 2 * 2 * 10000 = n * 10000 * 1 := by omega
  rw [units, numerator, denominator, hscale, hsignificand, hone]
  exact (congrArg (Number.roundDiv · 1) hunits).trans (Number.roundDiv_mul_right _ Nat.one_pos)

/-- The digits before the point fill fifteen places at most, and fourteen behind a minus sign. -/
def FitsKey (x : Binary64) : Prop := -10 ^ 14 < keyNumber.rounded x ∧ keyNumber.rounded x < 10 ^ 15

theorem fitsKey_iff :
    x.FitsKey ↔ -10 ^ 18 < keyNumber.signedUnits x ∧ keyNumber.signedUnits x < 10 ^ 19 := by
  have hlow : ((-10 ^ 14 : Int) : ℚ) < keyNumber.rounded x ↔ _ := lt_rounded_iff
  have hhigh : keyNumber.rounded x < ((10 ^ 15 : Int) : ℚ) ↔ _ := rounded_lt_iff
  have hone : (keyNumber.unitsPerOne : Int) = 10000 := rfl
  rw [hone] at hlow hhigh
  norm_num at hlow hhigh
  norm_num [FitsKey, hlow, hhigh]

theorem signedUnits_of_clear (hsign : x.negative = false) :
    keyNumber.signedUnits x = keyNumber.units x := by
  rw [signedUnits, hsign]
  rfl

theorem signedUnits_of_set (hsign : x.negative = true) :
    keyNumber.signedUnits x = -(keyNumber.units x : Int) := by
  rw [signedUnits, hsign]
  rfl

theorem clear_of_pos (h : 0 < keyNumber.signedUnits x) : x.negative = false := by
  by_contra hsign
  rw [signedUnits_of_set (Bool.not_eq_false _ ▸ hsign)] at h
  omega

theorem set_of_neg (h : keyNumber.signedUnits x < 0) : x.negative = true := by
  by_contra hsign
  rw [signedUnits_of_clear (Bool.not_eq_true _ ▸ hsign)] at h
  omega

theorem keyText_le_iff_of_clear (hx : x.isFinite) (hy : y.isFinite) (hsx : x.negative = false)
    (hsy : y.negative = false) (hfx : x.FitsKey) (hfy : y.FitsKey) :
    keyNumber.render x ≤ keyNumber.render y ↔
      keyNumber.signedUnits x ≤ keyNumber.signedUnits y := by
  rw [fitsKey_iff, signedUnits_of_clear hsx] at hfx
  rw [fitsKey_iff, signedUnits_of_clear hsy] at hfy
  rw [keyText_of_clear hx hsx, keyText_of_clear hy hsy,
    unitText.le_iff (by decide) (by omega) (by omega), signedUnits_of_clear hsx,
    signedUnits_of_clear hsy]
  omega

/-- Behind a minus sign the order of the texts is that of the magnitudes. -/
theorem keyText_le_iff_of_set (hx : x.isFinite) (hy : y.isFinite) (hsx : x.negative = true)
    (hsy : y.negative = true) (hfx : x.FitsKey) (hfy : y.FitsKey) :
    keyNumber.render x ≤ keyNumber.render y ↔
      keyNumber.signedUnits y ≤ keyNumber.signedUnits x := by
  rw [fitsKey_iff, signedUnits_of_set hsx] at hfx
  rw [fitsKey_iff, signedUnits_of_set hsy] at hfy
  rw [keyText_of_set hx hsx, keyText_of_set hy hsy, ← not_lt, Text.append_lt_append_iff, not_lt,
    unitText.le_iff (by decide) (by omega) (by omega), signedUnits_of_set hsx, signedUnits_of_set hsy]
  omega

theorem keyText_lt_of_signs (hx : x.isFinite) (hy : y.isFinite) (hsx : x.negative = true)
    (hsy : y.negative = false) : keyNumber.render x < keyNumber.render y := by
  rw [keyText_of_set hx hsx, keyText_of_clear hy hsy]
  exact unitText.minus_lt 15 _ _

theorem keyText_eq_iff_of_set (hx : x.isFinite) (hy : y.isFinite) (hsx : x.negative = true)
    (hsy : y.negative = true) : keyNumber.render x = keyNumber.render y ↔
      keyNumber.signedUnits x = keyNumber.signedUnits y := by
  rw [keyText_of_set hx hsx, keyText_of_set hy hsy, String.append_right_inj, signedUnits_of_set hsx,
    signedUnits_of_set hsy]
  refine ⟨fun h => ?_, fun h => ?_⟩
  · rw [unitText.injective h]
  · have hunits : keyNumber.units x = keyNumber.units y := by omega
    rw [hunits]

structure LedBy (lead : Nat) (x : Binary64) : Prop where
  le_iff : ∀ y : Binary64, y.isFinite → y.negative = false → y.FitsKey →
    (keyNumber.render y ≤ keyNumber.render x ↔ keyNumber.signedUnits y / 10000 ≤ lead)
  ge_iff : ∀ y : Binary64, y.isFinite → y.negative = false → y.FitsKey →
    (keyNumber.render x ≤ keyNumber.render y ↔ lead < keyNumber.signedUnits y / 10000)

theorem ledBy_of_leads {lead : Nat} (hx : x.isFinite) (hsign : x.negative = false)
    (hlead : lead < 10 ^ 15) (h : unitText.Leads lead (keyNumber.units x)) : LedBy lead x := by
  refine ⟨fun y hy hsy hfy => ?_, fun y hy hsy hfy => ?_⟩
  all_goals rw [fitsKey_iff, signedUnits_of_clear hsy] at hfy
  · rw [keyText_of_clear hx hsign, keyText_of_clear hy hsy,
      unitText.le_iff_of_leads h hlead (by omega), signedUnits_of_clear hsy]
    omega
  · rw [keyText_of_clear hx hsign, keyText_of_clear hy hsy,
      unitText.ge_iff_of_leads h hlead (by omega), signedUnits_of_clear hsy]
    omega

theorem exists_ledBy_of_wide (hx : x.isFinite) (hsign : x.negative = false)
    (h : 10 ^ 19 ≤ keyNumber.signedUnits x) : ∃ lead, 10 ^ 14 ≤ lead ∧ LedBy lead x := by
  rw [signedUnits_of_clear hsign] at h
  obtain ⟨lead, hlow, hhigh, hleads⟩ := unitText.exists_leads (n := keyNumber.units x) (by omega)
  exact ⟨lead, hlow, ledBy_of_leads hx hsign hhigh hleads⟩

theorem exists_wide_ledBy (lead : Nat) (hlow : 10 ^ 14 ≤ lead) (hhigh : lead < 10 ^ 15) :
    ∃ x : Binary64, x.isFinite ∧ 10 ^ 19 ≤ keyNumber.signedUnits x ∧ LedBy lead x := by
  obtain ⟨x, hx, hsign, hunits⟩ := exists_whole (n := lead * 10) (by omega) (by omega) (by omega)
  refine ⟨x, hx, ?_, ledBy_of_leads hx hsign hhigh (hunits ▸ unitText.leads_mul hlow)⟩
  rw [signedUnits_of_clear hsign, hunits]
  omega

/-- The texts between two bounds are those of the numbers between them. -/
def ComparesNumbers (low high : Binary64) : Prop :=
  ∀ x : Binary64, x.isFinite →
    (keyNumber.render low ≤ keyNumber.render x ∧ keyNumber.render x ≤ keyNumber.render high ↔
      keyNumber.rounded low ≤ keyNumber.rounded x ∧ keyNumber.rounded x ≤ keyNumber.rounded high)

/-- Ranges above zero whose whole parts leave no room for a number that is too wide, ranges of a single
negative number, and empty ranges from zero down. -/
inductive IsFaithful (low high : Binary64) : Prop
  | above (hlow : 0 < keyNumber.rounded low)
    (hwhole : ⌊keyNumber.rounded low⌋ < ⌊keyNumber.rounded high⌋ →
      ⌊keyNumber.rounded high⌋ ≤ 10 ^ 14)
  | single (hsame : keyNumber.rounded low = keyNumber.rounded high)
    (hnegative : keyNumber.rounded low < 0)
  | empty (hsign : low.negative = false) (hzero : keyNumber.rounded low = 0)
    (hnegative : keyNumber.rounded high < 0)

theorem rounded_pos_iff : 0 < keyNumber.rounded x ↔ 0 < keyNumber.signedUnits x := by
  have h : ((0 : Int) : ℚ) < keyNumber.rounded x ↔ _ := lt_rounded_iff
  simpa using h

theorem rounded_neg_iff : keyNumber.rounded x < 0 ↔ keyNumber.signedUnits x < 0 := by
  have h : keyNumber.rounded x < ((0 : Int) : ℚ) ↔ _ := rounded_lt_iff
  simpa using h

theorem rounded_eq_zero_iff : keyNumber.rounded x = 0 ↔ keyNumber.signedUnits x = 0 := by
  have hpos := rounded_pos_iff (x := x)
  have hneg := rounded_neg_iff (x := x)
  constructor
  · intro h
    have := (not_congr hpos).1 (not_lt.2 h.le)
    have := (not_congr hneg).1 (not_lt.2 h.ge)
    omega
  · intro h
    exact le_antisymm (not_lt.1 fun hlt => by have := hpos.1 hlt; omega)
      (not_lt.1 fun hlt => by have := hneg.1 hlt; omega)

variable {low high : Binary64}

theorem zero_of_comparesNumbers (h : ComparesNumbers low high)
    (hlower : keyNumber.signedUnits low ≤ 0) (hupper : 0 ≤ keyNumber.signedUnits high) (sign : Bool) :
    keyNumber.render low ≤ keyNumber.render (ofNat sign 0) ∧
      keyNumber.render (ofNat sign 0) ≤ keyNumber.render high := by
  refine (h (ofNat sign 0) (isFinite_zero sign)).2 ?_
  rw [rounded_le_iff, rounded_le_iff, signedUnits_zero]
  exact ⟨hlower, hupper⟩

theorem neg_of_comparesNumbers (hlow : low.isFinite) (h : ComparesNumbers low high)
    (hsl : low.negative = false) (hzero : keyNumber.signedUnits low = 0) : keyNumber.signedUnits high < 0 := by
  by_contra hneg
  have hbelow := keyText_lt_of_signs (isFinite_zero true) hlow (by decide) hsl
  exact absurd (zero_of_comparesNumbers h (by omega) (by omega) true).1 (not_le.2 hbelow)

section

variable (hlow : low.isFinite) (hhigh : high.isFinite)

include hlow hhigh

theorem comparesNumbers_above (hfl : low.FitsKey) (hfh : high.FitsKey)
    (hpos : 0 < keyNumber.signedUnits low)
    (hwhole : keyNumber.signedUnits low / 10000 < keyNumber.signedUnits high / 10000 →
      keyNumber.signedUnits high / 10000 ≤ 10 ^ 14) : ComparesNumbers low high := by
  have hsl := clear_of_pos hpos
  intro x hx
  rw [rounded_le_iff, rounded_le_iff]
  cases hsx : x.negative with
  | true =>
    -- a number with a minus sign is below
    have hxl := signedUnits_of_set hsx
    refine iff_of_false (fun h => absurd h.1 (not_le.2 (keyText_lt_of_signs hx hlow hsx hsl))) ?_
    rintro ⟨h, -⟩
    omega
  | false =>
    cases hsh : high.negative with
    | true =>
      have hxh := signedUnits_of_set hsh
      refine iff_of_false (fun h => absurd h.2 (not_le.2 (keyText_lt_of_signs hhigh hx hsh hsx))) ?_
      rintro ⟨h, h'⟩
      omega
    | false =>
      by_cases hfx : x.FitsKey
      · rw [keyText_le_iff_of_clear hlow hx hsl hsx hfl hfx,
          keyText_le_iff_of_clear hx hhigh hsx hsh hfx hfh]
      · -- a number that is too wide would have its leading digits in the range
        have hxc := signedUnits_of_clear hsx
        rw [fitsKey_iff] at hfx hfh
        obtain ⟨lead, hlead, hled⟩ := exists_ledBy_of_wide hx hsx (by omega)
        rw [hled.le_iff low hlow hsl hfl, hled.ge_iff high hhigh hsh (fitsKey_iff.2 hfh)]
        refine iff_of_false ?_ ?_
        · rintro ⟨h, h'⟩
          omega
        · rintro ⟨-, h⟩
          omega

theorem comparesNumbers_single (hsame : keyNumber.signedUnits low = keyNumber.signedUnits high)
    (hneg : keyNumber.signedUnits low < 0) : ComparesNumbers low high := by
  have hsl := set_of_neg hneg
  have hsh := set_of_neg (hsame ▸ hneg)
  have htext := (keyText_eq_iff_of_set hlow hhigh hsl hsh).2 hsame
  intro x hx
  rw [rounded_le_iff, rounded_le_iff, ← htext, ← hsame, ← le_antisymm_iff, ← le_antisymm_iff]
  cases hsx : x.negative with
  | true => exact keyText_eq_iff_of_set hlow hx hsl hsx
  | false =>
    have hxc := signedUnits_of_clear hsx
    refine iff_of_false (fun h => ?_) (by omega)
    exact absurd h (ne_of_lt (keyText_lt_of_signs hlow hx hsl hsx))

theorem comparesNumbers_empty (hsign : low.negative = false)
    (hzero : keyNumber.signedUnits low = 0) (hneg : keyNumber.signedUnits high < 0) :
    ComparesNumbers low high := by
  intro x hx
  rw [rounded_le_iff, rounded_le_iff]
  have hlt := keyText_lt_of_signs hhigh hlow (set_of_neg hneg) hsign
  refine iff_of_false (fun h => absurd (h.1.trans h.2) (not_le.2 hlt)) ?_
  rintro ⟨h, h'⟩
  omega

theorem whole_of_comparesNumbers (hfl : low.FitsKey) (hfh : high.FitsKey)
    (h : ComparesNumbers low high) (hpos : 0 < keyNumber.signedUnits low)
    (hlt : keyNumber.signedUnits low / 10000 < keyNumber.signedUnits high / 10000) :
    keyNumber.signedUnits high / 10000 ≤ 10 ^ 14 := by
  by_contra hwhole
  have hsl := clear_of_pos hpos
  have hsh : high.negative = false := clear_of_pos (by omega)
  have hfh' := fitsKey_iff.1 hfh
  obtain ⟨x, hx, hwide, hled⟩ := exists_wide_ledBy
    (max (keyNumber.signedUnits low / 10000).toNat (10 ^ 14)) (le_max_right _ _) (by omega)
  have hbetween := (h x hx).1 ⟨(hled.le_iff low hlow hsl hfl).2 (by omega),
    (hled.ge_iff high hhigh hsh hfh).2 (by omega)⟩
  rw [rounded_le_iff, rounded_le_iff] at hbetween
  omega

theorem single_of_comparesNumbers (hfl : low.FitsKey) (hfh : high.FitsKey)
    (h : ComparesNumbers low high) (hsl : low.negative = true) (hsh : high.negative = true) :
    keyNumber.signedUnits low = keyNumber.signedUnits high ∧ keyNumber.signedUnits low < 0 := by
  have hlower := h low hlow
  rw [rounded_le_iff, rounded_le_iff, keyText_le_iff_of_set hlow hhigh hsl hsh hfl hfh] at hlower
  simp only [le_refl, true_and] at hlower
  refine ⟨by omega, ?_⟩
  by_contra hneg
  have hlowUnits := signedUnits_of_set hsl
  have hbelow := keyText_lt_of_signs hhigh (isFinite_zero false) hsh (by decide)
  exact absurd (zero_of_comparesNumbers h (by omega) (by omega) false).2 (not_le.2 hbelow)

theorem not_comparesNumbers_of_signs (hfl : low.FitsKey) (hsl : low.negative = true)
    (hsh : high.negative = false) : ¬ComparesNumbers low high := by
  intro h
  have hlowUnits := signedUnits_of_set hsl
  have hhighUnits := signedUnits_of_clear hsh
  by_cases hneg : keyNumber.signedUnits low < 0
  · have hfits : (ofNat true 0).FitsKey := fitsKey_iff.2 (by rw [signedUnits_zero]; decide)
    have htext := (zero_of_comparesNumbers h (by omega) (by omega) true).1
    rw [keyText_le_iff_of_set hlow (isFinite_zero true) hsl (by decide) hfl hfits,
      signedUnits_zero] at htext
    omega
  · let minusOne : Binary64 := ofNat true 0x3FF0000000000000
    have hone : keyNumber.signedUnits minusOne = -10000 := by decide +kernel
    have hfinite : minusOne.isFinite := by decide
    have hfits : minusOne.FitsKey := fitsKey_iff.2 (by rw [hone]; decide)
    have hbetween := (h minusOne hfinite).1
    rw [rounded_le_iff, rounded_le_iff, hone,
      keyText_le_iff_of_set hlow hfinite hsl (by decide) hfl hfits, hone] at hbetween
    have := hbetween ⟨by omega, (keyText_lt_of_signs hfinite hhigh (by decide) hsh).le⟩
    omega

/-- The texts between bounds that fit are those of the numbers between them exactly for faithful
ranges. -/
theorem comparesNumbers_iff (hfl : low.FitsKey) (hfh : high.FitsKey) :
    ComparesNumbers low high ↔ IsFaithful low high := by
  have hfloor (x : Binary64) : ⌊keyNumber.rounded x⌋ = keyNumber.signedUnits x / 10000 :=
    floor_rounded keyNumber x
  constructor
  · intro h
    by_cases hpos : 0 < keyNumber.signedUnits low
    · refine .above (rounded_pos_iff.2 hpos) ?_
      rw [hfloor, hfloor]
      exact whole_of_comparesNumbers hlow hhigh hfl hfh h hpos
    cases hsl : low.negative with
    | false =>
      have hunits := signedUnits_of_clear hsl
      have hzero : keyNumber.signedUnits low = 0 := by omega
      exact .empty hsl (rounded_eq_zero_iff.2 hzero)
        (rounded_neg_iff.2 (neg_of_comparesNumbers hlow h hsl hzero))
    | true =>
      cases hsh : high.negative with
      | false => exact absurd h (not_comparesNumbers_of_signs hlow hhigh hfl hsl hsh)
      | true =>
        obtain ⟨hsame, hneg⟩ := single_of_comparesNumbers hlow hhigh hfl hfh h hsl hsh
        exact .single (by rw [rounded, rounded, hsame]) (rounded_neg_iff.2 hneg)
  · rintro (⟨hpos, hwhole⟩ | ⟨hsame, hneg⟩ | ⟨hsign, hzero, hneg⟩)
    · rw [hfloor, hfloor] at hwhole
      exact comparesNumbers_above hlow hhigh hfl hfh (rounded_pos_iff.1 hpos) hwhole
    · refine comparesNumbers_single hlow hhigh ?_ (rounded_neg_iff.1 hneg)
      exact le_antisymm (rounded_le_iff.1 hsame.le) (rounded_le_iff.1 hsame.ge)
    · exact comparesNumbers_empty hlow hhigh hsign (rounded_eq_zero_iff.1 hzero)
        (rounded_neg_iff.1 hneg)

end

end Binary64

end Cabinet
