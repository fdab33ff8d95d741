import Cabinet.Record.Attribute
import Cabinet.Proofs.Text.Padded

/-! The texts of numbers in keys, and their order. Main statements: of numbers with one sign the texts
are in the order of the magnitudes as long as these fit their places, a minus sign comes before all
digits, and a magnitude that does not fit is placed by its leading digits. -/

namespace Cabinet

def unitText (width units : Nat) : String :=
  Text.padded width (units / 10000) ++ ("." ++ Text.padded 4 (units % 10000))

namespace unitText

open Text

variable {width m n lead : Nat}

theorem length_places (n : Nat) : (padded 4 (n % 10000)).toList.length = 4 :=
  length_padded (by decide) (Nat.mod_lt n (by decide))

theorem injective (h : unitText width m = unitText width n) : m = n := by
  simp only [unitText, ← String.append_assoc] at h
  obtain ⟨hfront, hplaces⟩ := padded_append_inj (by decide) (Nat.mod_lt m (by decide))
    (Nat.mod_lt n (by decide)) h
  have hwhole := padded_injective ((String.append_left_inj _).1 hfront)
  omega

theorem lt_iff (hwidth : 0 < width) (hm : m / 10000 < 10 ^ width) (hn : n / 10000 < 10 ^ width) :
    unitText width m < unitText width n ↔ m < n := by
  have hplaces : padded 4 (m % 10000) < padded 4 (n % 10000) ↔ m % 10000 < n % 10000 :=
    padded_lt_iff (by decide) (Nat.mod_lt m (by decide)) (Nat.mod_lt n (by decide))
  rw [unitText, unitText, padded_append_lt_iff hwidth hm hn, append_lt_append_iff, hplaces]
  omega

theorem le_iff (hwidth : 0 < width) (hm : m / 10000 < 10 ^ width) (hn : n / 10000 < 10 ^ width) :
    unitText width m ≤ unitText width n ↔ m ≤ n := by
  rw [← not_lt, lt_iff hwidth hn hm, not_lt]

theorem minus_lt (width n : Nat) (s : String) : "-" ++ s < unitText width n := by
  obtain ⟨c, cs, hcs⟩ : ∃ c cs, (padded width (n / 10000)).toList = c :: cs := by
    refine List.exists_cons_of_ne_nil fun hnil => ?_
    simp [padded] at hnil
  have hdigit := (toNat_of_isDigit (isDigit_of_mem_padded (hcs ▸ List.mem_cons_self))).1
  have hminus : '-' < c := lt_of_lt_of_le (by decide : '-'.toNat < '0'.toNat) hdigit
  rw [String.lt_iff, unitText, String.toList_append, String.toList_append, hcs]
  exact List.cons_lt_cons_iff.2 (.inl hminus)

/-- Fifteen digits that a text begins with, and another digit behind them. -/
def Leads (lead units : Nat) : Prop :=
  ∃ c rest, Char.isDigit c ∧ unitText 15 units = padded 15 lead ++ String.ofList (c :: rest)

theorem leads_of_decimal {c : Char} {rest : List Char} (hlow : 10 ^ 14 ≤ lead) (hc : c.isDigit)
    (hn : 10 ^ 14 ≤ n / 10000) (h : decimal (n / 10000) = decimal lead ++ String.ofList (c :: rest)) :
    Leads lead n := by
  refine ⟨c, rest ++ ("." ++ padded 4 (n % 10000)).toList, hc, ?_⟩
  rw [unitText, padded_of_le (by decide) hn, padded_of_le (by decide) hlow, h, String.append_assoc,
    ← List.cons_append, String.ofList_append, String.ofList_toList]

theorem exists_leads (h : 10 ^ 15 ≤ n / 10000) :
    ∃ lead, 10 ^ 14 ≤ lead ∧ lead < 10 ^ 15 ∧ Leads lead n := by
  obtain ⟨lead, c, rest, hlow, hhigh, hc, hdecimal⟩ := exists_leading h
  exact ⟨lead, hlow, hhigh, leads_of_decimal hlow hc (by omega) hdecimal⟩

theorem leads_mul (hlow : 10 ^ 14 ≤ lead) : Leads lead (lead * 10 * 10000) := by
  have hten : 10 ≤ lead * 10 := by omega
  have hdecimal := decimal_of_le hten
  rw [Nat.mul_div_cancel _ (by decide)] at hdecimal
  have hwhole : lead * 10 * 10000 / 10000 = lead * 10 := Nat.mul_div_cancel _ (by decide)
  exact leads_of_decimal hlow (by simp) (by omega) ((congrArg decimal hwhole).trans hdecimal)

theorem point_lt {c : Char} (hc : c.isDigit) (s : String) (rest : List Char) :
    "." ++ s < String.ofList (c :: rest) := by
  have hpoint : '.' < c := lt_of_lt_of_le (by decide : '.'.toNat < '0'.toNat) (toNat_of_isDigit hc).1
  have hdigits : (String.ofList (c :: rest)).toList = c :: rest := String.toList_ofList
  rw [String.lt_iff, String.toList_append, hdigits]
  exact List.cons_lt_cons_iff.2 (.inl hpoint)

/-- A text that fits comes before one that does not when its whole places are no more than the leading
digits of the other: a point comes before all digits. -/
theorem le_iff_of_leads (h : Leads lead n) (hlead : lead < 10 ^ 15) (hm : m / 10000 < 10 ^ 15) :
    unitText 15 m ≤ unitText 15 n ↔ m / 10000 ≤ lead := by
  obtain ⟨c, rest, hc, hn⟩ := h
  have hlater := point_lt hc (padded 4 (m % 10000)) rest
  have hnot := lt_asymm hlater
  rw [← not_lt, hn, unitText, padded_append_lt_iff (by decide) hlead hm]
  simp only [hnot, and_false, or_false]
  exact Nat.not_lt

theorem ge_iff_of_leads (h : Leads lead n) (hlead : lead < 10 ^ 15) (hm : m / 10000 < 10 ^ 15) :
    unitText 15 n ≤ unitText 15 m ↔ lead < m / 10000 := by
  obtain ⟨c, rest, hc, hn⟩ := h
  have hlater := point_lt hc (padded 4 (m % 10000)) rest
  rw [← not_lt, hn, unitText, padded_append_lt_iff (by decide) hm hlead, and_iff_left hlater]
  omega

end unitText

end Cabinet
