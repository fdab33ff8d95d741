import Mathlib.Tactic.IntervalCases
import Cabinet.Calendar.Instant
import Cabinet.Proofs.Text.Padded

/-! The order of instants and the order of their texts. Main statements: a day is known by its text,
and of two instants of one day the one with the smaller text is earlier. -/

namespace Cabinet

namespace Day

theorem dayOfYear_bounds {dayOfEra yearOfEra : Int} (h0 : 0 ≤ dayOfEra) (h1 : dayOfEra < 146097)
    (hyear : (dayOfEra - dayOfEra / 1460 + dayOfEra / 36524 - dayOfEra / 146096) / 365 =
      yearOfEra) :
    yearOfEra ≤ 399 ∧ 0 ≤ dayOfEra - (365 * yearOfEra + yearOfEra / 4 - yearOfEra / 100) ∧
      dayOfEra - (365 * yearOfEra + yearOfEra / 4 - yearOfEra / 100) ≤ 365 := by
  have hlow : 0 ≤ dayOfEra / 36524 := by omega
  have hhigh : dayOfEra / 36524 ≤ 4 := by omega
  have hlow' : 0 ≤ yearOfEra / 100 := by omega
  have hhigh' : yearOfEra / 100 ≤ 3 := by omega
  -- with the centuries fixed, what is left is linear
  generalize hcenturies : dayOfEra / 36524 = centuries at *
  generalize hcenturies' : yearOfEra / 100 = centuries' at *
  interval_cases centuries <;> interval_cases centuries' <;> omega

theorem number_ofNumber (n : Int) : (ofNumber n).number = n := by
  unfold ofNumber number
  simp only
  generalize hera : (n + 719468) / 146097 = era
  obtain ⟨dayOfEra, hday⟩ : ∃ d, n + 719468 - era * 146097 = d := ⟨_, rfl⟩
  rw [hday]
  generalize hyear : (dayOfEra - dayOfEra / 1460 + dayOfEra / 36524 - dayOfEra / 146096) / 365 =
    yearOfEra
  obtain ⟨hyear399, hbounds⟩ := dayOfYear_bounds (by omega) (by omega) hyear
  obtain ⟨dayOfYear, hdoy⟩ : ∃ d,
    dayOfEra - (365 * yearOfEra + yearOfEra / 4 - yearOfEra / 100) = d := ⟨_, rfl⟩
  rw [hdoy] at hbounds ⊢
  generalize hmonths : (5 * dayOfYear + 2) / 153 = monthFromMarch
  -- the month counts from March again, and its year is the one before when it comes early
  obtain ⟨month, hmonth⟩ : ∃ m, (monthFromMarch + 2) % 12 + 1 = m := ⟨_, rfl⟩
  have hback : ((month.toNat : Int) + 9) % 12 = monthFromMarch := by omega
  have hyears : (if month.toNat ≤ 2 then
        (if month ≤ 2 then yearOfEra + era * 400 + 1 else yearOfEra + era * 400) - 1
      else if month ≤ 2 then yearOfEra + era * 400 + 1 else yearOfEra + era * 400) =
      yearOfEra + era * 400 := by
    split_ifs <;> omega
  have hdays : (153 * monthFromMarch + 2) / 5 +
      ((dayOfYear - (153 * monthFromMarch + 2) / 5 + 1).toNat : Int) - 1 = dayOfYear := by
    omega
  have hera' : (yearOfEra + era * 400) / 400 = era := by omega
  have hrest : yearOfEra + era * 400 - era * 400 = yearOfEra := by omega
  rw [hmonth, hyears, hback, hdays, hera', hrest]
  omega

theorem ofNumber_lt (n : Int) : (ofNumber n).month < 10 ^ 2 ∧ (ofNumber n).day < 10 ^ 2 := by
  unfold ofNumber
  simp only
  generalize n + 719468 - (n + 719468) / 146097 * 146097 = dayOfEra
  generalize dayOfEra - (365 * ((dayOfEra - dayOfEra / 1460 + dayOfEra / 36524 -
    dayOfEra / 146096) / 365) + _ - _) = dayOfYear
  omega

theorem yearText_injective {x y : Int} (h : yearText x = yearText y) : x = y := by
  have hsign (sign : Char) (hsign : ¬sign.isDigit) (m n : Nat) :
      String.singleton sign ++ Text.padded 4 m ≠ Text.padded 4 n := by
    intro he
    have hmem : sign ∈ (Text.padded 4 n).toList := by simp [← he]
    exact hsign (Text.isDigit_of_mem_padded hmem)
  have hminus (m n : Nat) : "-" ++ Text.padded 4 m ≠ Text.padded 4 n := hsign '-' (by decide) m n
  have hplus (m n : Nat) : "+" ++ Text.padded 4 m ≠ Text.padded 4 n := hsign '+' (by decide) m n
  have hsigns (m n : Nat) : "-" ++ Text.padded 4 m ≠ "+" ++ Text.padded 4 n :=
    Text.append_ne_append (by decide) (by decide) _ _
  have hpadded {m n : Nat} (he : Text.padded 4 m = Text.padded 4 n) : m = n :=
    Text.padded_injective he
  unfold yearText at h
  -- three forms on each side; unlike forms have unlike first characters
  split_ifs at h
  · have := hpadded ((String.append_right_inj _).1 h)
    omega
  · exact absurd h (hminus _ _)
  · exact absurd h (hsigns _ _)
  · exact absurd h.symm (hminus _ _)
  · have := hpadded h
    omega
  · exact absurd h.symm (hplus _ _)
  · exact absurd h.symm (hsigns _ _)
  · exact absurd h (hplus _ _)
  · have := hpadded ((String.append_right_inj _).1 h)
    omega

theorem text_ofNumber_injective {m n : Int} (h : (ofNumber m).text = (ofNumber n).text) :
    m = n := by
  obtain ⟨hmonth, hday⟩ := ofNumber_lt m
  obtain ⟨hmonth', hday'⟩ := ofNumber_lt n
  have hsame : ofNumber m = ofNumber n := by
    generalize ofNumber m = a at *
    generalize ofNumber n = b at *
    obtain ⟨hfront, hdays⟩ := Text.padded_append_inj (by decide) hday hday' h
    obtain ⟨hyear, hmonths⟩ := Text.padded_append_inj (by decide) hmonth hmonth'
      ((String.append_left_inj _).1 hfront)
    have hyears := yearText_injective ((String.append_left_inj _).1 hyear)
    cases a
    cases b
    simp_all
  rw [← number_ofNumber m, hsame, number_ofNumber]

end Day

namespace Instant

/-- Nanoseconds past the second are those of a leap second, which the last second of a minute may
have. -/
def IsProper (t : Instant) : Prop :=
  t.nanosecond < 1000000000 ∨ t.nanosecond < 2000000000 ∧ t.second % 60 = 59

instance (t : Instant) : Decidable t.IsProper := inferInstanceAs (Decidable (_ ∨ _))

theorem lt_of_millisecondText_append_lt {a b : Instant} (ha : a.IsProper) (hb : b.IsProper)
    (hday : a.day.text = b.day.text) {x y : String}
    (h : a.millisecondText ++ x < b.millisecondText ++ y) :
    a.second < b.second ∨ a.second = b.second ∧
      (a.nanosecond / 1000000 < b.nanosecond / 1000000 ∨
        a.nanosecond / 1000000 = b.nanosecond / 1000000 ∧ x < y) := by
  have hdays : a.second / 86400 = b.second / 86400 := Day.text_ofNumber_injective hday
  unfold IsProper at ha hb
  simp only [millisecondText, wholeText, hday, String.append_assoc] at h
  have h := Text.lt_of_append_lt_append (Text.lt_of_append_lt_append h)
  unfold secondOfDay at h
  rcases Text.lt_of_padded_append_lt (by decide) (by omega) (by omega) h with hhour | ⟨hhour, h⟩
  · exact .inl (by omega)
  rcases Text.lt_of_padded_append_lt (by decide) (by omega) (by omega)
    (Text.lt_of_append_lt_append h) with hminute | ⟨hminute, h⟩
  · exact .inl (by omega)
  have hminutes : a.second / 60 = b.second / 60 := by omega
  clear hhour hminute hdays
  rcases Text.lt_of_padded_append_lt (by decide) (by omega) (by omega)
    (Text.lt_of_append_lt_append h) with hsecond | ⟨hsecond, h⟩
  · -- the text of a leap second is behind that of the second it belongs to
    have hlt : a.second < b.second ∨ a.second = b.second ∧
        a.nanosecond / 1000000 < b.nanosecond / 1000000 := by
      omega
    exact hlt.imp_right (And.imp_right .inl)
  have hseconds : a.second = b.second ∧
      a.nanosecond / 1000000000 = b.nanosecond / 1000000000 := by
    omega
  refine .inr ⟨hseconds.1, ?_⟩
  rcases Text.lt_of_padded_append_lt (by decide) (by omega) (by omega)
    (Text.lt_of_append_lt_append h) with hfraction | ⟨hfraction, h⟩
  · exact .inl (by omega)
  · exact .inr ⟨by omega, Text.lt_of_append_lt_append h⟩

theorem length_millisecondText {t : Instant} (h : t.IsProper) :
    t.millisecondText.toList.length = t.day.text.toList.length + 14 := by
  have hmarks : "T".toList.length = 1 ∧ ":".toList.length = 1 ∧ ".".toList.length = 1 ∧
      "Z".toList.length = 1 := by decide
  unfold IsProper at h
  simp only [millisecondText, wholeText, secondOfDay, String.toList_append, List.length_append,
    hmarks]
  rw [Text.length_padded (by decide) (by omega), Text.length_padded (by decide) (by omega),
    Text.length_padded (by decide) (by omega), Text.length_padded (by decide) (by omega)]

theorem append_inj_of_millisecondText {a b : Instant} (ha : a.IsProper) (hb : b.IsProper)
    (hday : a.day.text = b.day.text) {x y : String}
    (h : a.millisecondText ++ x = b.millisecondText ++ y) : x = y := by
  have hlength : a.millisecondText.toList.length = b.millisecondText.toList.length := by
    rw [length_millisecondText ha, length_millisecondText hb, hday]
  rw [← String.toList_inj, String.toList_append, String.toList_append] at h
  exact String.toList_inj.1 (List.append_inj h hlength).2

end Instant

end Cabinet
