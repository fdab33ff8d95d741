/-! Rounding a ratio of natural numbers to the nearest natural number, a half to the even
neighbour. Main statements: the result is within a half, and monotone in the ratio. -/

namespace Cabinet.Number

/-- The natural number nearest to `num / den`; a half goes to the even neighbour. -/
def roundDiv (num den : Nat) : Nat :=
  let quotient := num / den
  let twice := 2 * (num % den)
  if twice < den then quotient
  else if den < twice then quotient + 1
  else if quotient % 2 = 0 then quotient
  else quotient + 1

theorem roundDiv_bounds (num : Nat) {den : Nat} (h : 0 < den) :
    2 * num ≤ 2 * den * roundDiv num den + den ∧ 2 * den * roundDiv num den ≤ 2 * num + den := by
  have hmod := Nat.mod_lt num h
  have hdiv : den * (num / den) + num % den = num := Nat.div_add_mod num den
  have hsucc : 2 * den * (num / den + 1) = 2 * (den * (num / den)) + 2 * den := by
    rw [Nat.mul_add, Nat.mul_assoc, Nat.mul_one]
  have hsame : 2 * den * (num / den) = 2 * (den * (num / den)) := Nat.mul_assoc ..
  simp only [roundDiv]
  split
  · rw [hsame]; omega
  · split
    · rw [hsucc]; omega
    · split
      · rw [hsame]; omega
      · rw [hsucc]; omega

theorem roundDiv_mul_right (n : Nat) {den : Nat} (h : 0 < den) : roundDiv (n * den) den = n := by
  simp [roundDiv, Nat.mul_div_cancel _ h, h]

theorem roundDiv_of_half {num den q : Nat} (hden : 0 < den) (h : 2 * num = den * (2 * q + 1)) :
    roundDiv num den = q + q % 2 := by
  obtain ⟨half, rfl⟩ : ∃ half, num = den * q + half := ⟨num - den * q, by
    rw [Nat.mul_add, Nat.mul_left_comm] at h
    omega⟩
  have hhalf : 2 * half = den := by
    rw [Nat.mul_add, Nat.mul_add, Nat.mul_left_comm] at h
    omega
  have hquotient : (den * q + half) / den = q := by
    rw [Nat.mul_add_div hden, Nat.div_eq_of_lt (by omega), Nat.add_zero]
  have hmod : (den * q + half) % den = half := by
    rw [Nat.mul_add_mod, Nat.mod_eq_of_lt (by omega)]
  simp only [roundDiv, hquotient, hmod, hhalf, Nat.lt_irrefl, if_false]
  split <;> omega

theorem roundDiv_le_roundDiv {num den num' den' : Nat} (hden : 0 < den) (hden' : 0 < den')
    (h : num * den' ≤ num' * den) : roundDiv num den ≤ roundDiv num' den' := by
  refine Nat.not_lt.1 fun hlt => ?_
  -- else both ratios are half way between the same neighbours
  have hlow : den * (2 * roundDiv num' den' + 1) ≤ 2 * num := by
    have hbound := (roundDiv_bounds num hden).2
    have hnext := Nat.mul_le_mul_left (2 * den) (Nat.succ_le_of_lt hlt)
    rw [Nat.mul_add, Nat.mul_left_comm, ← Nat.mul_assoc]
    rw [Nat.mul_succ] at hnext
    omega
  have hhigh : 2 * num' ≤ den' * (2 * roundDiv num' den' + 1) := by
    have hbound := (roundDiv_bounds num' hden').1
    rw [Nat.mul_add, Nat.mul_left_comm, ← Nat.mul_assoc]
    omega
  have hcross : den * (2 * roundDiv num' den' + 1) * den' =
      den' * (2 * roundDiv num' den' + 1) * den := by ac_rfl
  have hleft := Nat.mul_le_mul_right den' hlow
  have hright := Nat.mul_le_mul_right den hhigh
  rw [Nat.mul_assoc 2] at hleft hright
  have hnum : 2 * num * den' = den * (2 * roundDiv num' den' + 1) * den' := by
    rw [Nat.mul_assoc 2]
    omega
  have hnum' : 2 * num' * den = den' * (2 * roundDiv num' den' + 1) * den := by
    rw [Nat.mul_assoc 2]
    omega
  have heven := roundDiv_of_half hden (Nat.eq_of_mul_eq_mul_right hden' hnum)
  have heven' := roundDiv_of_half hden' (Nat.eq_of_mul_eq_mul_right hden hnum')
  omega

end Cabinet.Number
