import Mathlib.Data.String.Basic
import Mathlib.Tactic.Ring
import Cabinet.Text.Natural

/-! Numbers written with zeros in front up to a width. Main statement: texts that begin with numbers of
one width are in the order of the numbers, then of what follows. -/

namespace Cabinet

namespace Text

theorem length_padded {width n : Nat} (hwidth : 0 < width) (h : n < 10 ^ width) :
    (padded width n).toList.length = width := by
  have hdigits := (Nat.length_toDigits_le_iff (by decide) hwidth).2 h
  simp only [padded, String.toList_ofList, List.length_append, List.length_replicate]
  omega

theorem isDigit_of_mem_padded {width n : Nat} {c : Char} (h : c ∈ (padded width n).toList) :
    c.isDigit := by
  simp only [padded, String.toList_ofList, List.mem_append, List.mem_replicate] at h
  rcases h with ⟨-, rfl⟩ | h
  · decide
  · exact isDigit_of_mem_toDigits h

theorem ofDigitChars_padded (width n : Nat) :
    Nat.ofDigitChars 10 (padded width n).toList 0 = n := by
  rw [padded, String.toList_ofList, Nat.ofDigitChars_append, Nat.ofDigitChars_replicate_zero,
    Nat.mul_zero, Nat.ofDigitChars_ten_toDigits]

theorem padded_injective {width m n : Nat} (h : padded width m = padded width n) : m = n := by
  rw [← ofDigitChars_padded width m, h, ofDigitChars_padded]

theorem toNat_of_isDigit {c : Char} (h : c.isDigit) : '0'.toNat ≤ c.toNat ∧ c.toNat ≤ '9'.toNat := by
  have hrange : '0' ≤ c ∧ c ≤ '9' := by simpa [Char.isDigit, Char.le_def] using h
  rwa [Char.le_def, Char.le_def, UInt32.le_iff_toNat_le, UInt32.le_iff_toNat_le] at hrange

theorem ofDigitChars_bounds {cs : List Char} (h : ∀ c ∈ cs, c.isDigit) (n : Nat) :
    n * 10 ^ cs.length ≤ Nat.ofDigitChars 10 cs n ∧
      Nat.ofDigitChars 10 cs n < (n + 1) * 10 ^ cs.length := by
  induction cs generalizing n with
  | nil => simp [Nat.ofDigitChars]
  | cons c cs ih =>
    obtain ⟨hzero, hnine⟩ := toNat_of_isDigit (h c List.mem_cons_self)
    obtain ⟨hlow, hhigh⟩ := ih (fun d hd => h d (List.mem_cons_of_mem c hd))
      (10 * n + (c.toNat - '0'.toNat))
    have hdigit : c.toNat - '0'.toNat ≤ 9 := Nat.sub_le_of_le_add hnine
    rw [Nat.ofDigitChars_cons, List.length_cons, Nat.pow_succ]
    generalize c.toNat - '0'.toNat = d at *
    constructor
    · calc n * (10 ^ cs.length * 10) = 10 * n * 10 ^ cs.length := by ring
        _ ≤ (10 * n + d) * 10 ^ cs.length := Nat.mul_le_mul_right _ (Nat.le_add_right _ _)
        _ ≤ _ := hlow
    · calc Nat.ofDigitChars 10 cs (10 * n + d) < (10 * n + d + 1) * 10 ^ cs.length := hhigh
        _ ≤ (10 * n + 10) * 10 ^ cs.length := Nat.mul_le_mul_right _ (by omega)
        _ = (n + 1) * (10 ^ cs.length * 10) := by ring

theorem ofDigitChars_lt {cs ds : List Char} (hlength : cs.length = ds.length)
    (hcs : ∀ c ∈ cs, c.isDigit) (hds : ∀ d ∈ ds, d.isDigit) (h : cs < ds) (n : Nat) :
    Nat.ofDigitChars 10 cs n < Nat.ofDigitChars 10 ds n := by
  induction cs generalizing ds n with
  | nil =>
    rw [List.eq_nil_of_length_eq_zero hlength.symm] at h
    cases h
  | cons c cs ih =>
    cases ds with
    | nil => cases hlength
    | cons d ds =>
      have hlength' : cs.length = ds.length := Nat.succ.inj hlength
      have hcs' := fun x hx => hcs x (List.mem_cons_of_mem c hx)
      have hds' := fun x hx => hds x (List.mem_cons_of_mem d hx)
      rcases List.cons_lt_cons_iff.1 h with hlt | ⟨rfl, hlt⟩
      · have hdigits : c.toNat < d.toNat := hlt
        obtain ⟨hzero, -⟩ := toNat_of_isDigit (hcs c List.mem_cons_self)
        calc Nat.ofDigitChars 10 cs (10 * n + (c.toNat - '0'.toNat))
            < (10 * n + (c.toNat - '0'.toNat) + 1) * 10 ^ cs.length :=
              (ofDigitChars_bounds hcs' _).2
          _ ≤ (10 * n + (d.toNat - '0'.toNat)) * 10 ^ ds.length := by
              rw [hlength']
              exact Nat.mul_le_mul_right _ (by omega)
          _ ≤ Nat.ofDigitChars 10 ds (10 * n + (d.toNat - '0'.toNat)) :=
              (ofDigitChars_bounds hds' _).1
      · exact ih hlength' hcs' hds' hlt _

theorem lt_of_padded_lt {width m n : Nat} (hwidth : 0 < width) (hm : m < 10 ^ width)
    (hn : n < 10 ^ width) (h : padded width m < padded width n) : m < n := by
  have hlength := (length_padded hwidth hm).trans (length_padded hwidth hn).symm
  have hlt := ofDigitChars_lt hlength (fun _ => isDigit_of_mem_padded)
    (fun _ => isDigit_of_mem_padded) (String.lt_iff.1 h) 0
  rwa [ofDigitChars_padded, ofDigitChars_padded] at hlt

theorem list_lt_of_append_lt {cs ds xs ys : List Char} (hlength : cs.length = ds.length)
    (h : cs ++ xs < ds ++ ys) : cs < ds ∨ cs = ds ∧ xs < ys := by
  induction cs generalizing ds with
  | nil =>
    rw [List.eq_nil_of_length_eq_zero hlength.symm] at h ⊢
    exact .inr ⟨rfl, h⟩
  | cons c cs ih =>
    cases ds with
    | nil => cases hlength
    | cons d ds =>
      rw [List.cons_append, List.cons_append, List.cons_lt_cons_iff] at h
      rcases h with hlt | ⟨rfl, h⟩
      · exact .inl (List.cons_lt_cons_iff.2 (.inl hlt))
      · rcases ih (Nat.succ.inj hlength) h with hlt | ⟨rfl, hlt⟩
        · exact .inl (List.cons_lt_cons_iff.2 (.inr ⟨rfl, hlt⟩))
        · exact .inr ⟨rfl, hlt⟩

theorem lt_of_append_lt_append {p a b : String} (h : p ++ a < p ++ b) : a < b := by
  rw [String.lt_iff, String.toList_append, String.toList_append] at h
  rcases list_lt_of_append_lt rfl h with hlt | ⟨-, hlt⟩
  · exact absurd hlt (List.lt_irrefl _)
  · exact String.lt_iff.2 hlt

/-- Texts that begin with a number of fixed width are in the order of the numbers, then of the
rest. -/
theorem lt_of_padded_append_lt {width m n : Nat} (hwidth : 0 < width) (hm : m < 10 ^ width)
    (hn : n < 10 ^ width) {a b : String} (h : padded width m ++ a < padded width n ++ b) :
    m < n ∨ m = n ∧ a < b := by
  have hlength := (length_padded hwidth hm).trans (length_padded hwidth hn).symm
  rw [String.lt_iff, String.toList_append, String.toList_append] at h
  rcases list_lt_of_append_lt hlength h with hlt | ⟨he, hlt⟩
  · exact .inl (lt_of_padded_lt hwidth hm hn (String.lt_iff.2 hlt))
  · exact .inr ⟨padded_injective (String.toList_inj.1 he), String.lt_iff.2 hlt⟩

theorem padded_append_inj {width m n : Nat} (hwidth : 0 < width) (hm : m < 10 ^ width)
    (hn : n < 10 ^ width) {a b : String} (h : a ++ padded width m = b ++ padded width n) :
    a = b ∧ m = n := by
  have hlength := (length_padded hwidth hm).trans (length_padded hwidth hn).symm
  rw [← String.toList_inj, String.toList_append, String.toList_append] at h
  obtain ⟨ha, hb⟩ := List.append_inj' h hlength
  exact ⟨String.toList_inj.1 ha, padded_injective (String.toList_inj.1 hb)⟩

theorem append_lt_append_iff {p a b : String} : p ++ a < p ++ b ↔ a < b := by
  refine ⟨lt_of_append_lt_append, fun h => ?_⟩
  rw [String.lt_iff, String.toList_append, String.toList_append]
  exact List.append_left_lt (String.lt_iff.1 h)

theorem lt_append {s rest : String} (h : rest ≠ "") : s < s ++ rest := by
  rw [String.lt_iff, String.toList_append]
  have hrest : rest.toList ≠ [] := fun hnil => h (String.toList_inj.1 (by rw [hnil]; rfl))
  obtain ⟨c, cs, hcs⟩ := List.exists_cons_of_ne_nil hrest
  have hlt : s.toList ++ [] < s.toList ++ c :: cs := List.append_left_lt (List.nil_lt_cons c cs)
  rwa [List.append_nil, ← hcs] at hlt

/-- Of two texts the earlier one begins the later one, or it stays the earlier one whatever follows. -/
theorem lt_cases {s t : String} (h : s < t) :
    (∃ rest, rest ≠ "" ∧ t = s ++ rest) ∨ ∀ x y, s ++ x < t ++ y := by
  have key {cs ds : List Char} (h : cs < ds) :
      (∃ es, es ≠ [] ∧ ds = cs ++ es) ∨ ∀ xs ys, cs ++ xs < ds ++ ys := by
    induction cs generalizing ds with
    | nil =>
      refine .inl ⟨ds, ?_, rfl⟩
      rintro rfl
      cases h
    | cons c cs ih =>
      cases ds with
      | nil => cases h
      | cons d ds =>
        rcases List.cons_lt_cons_iff.1 h with hlt | ⟨rfl, hlt⟩
        · exact .inr fun xs ys => List.cons_lt_cons_iff.2 (.inl hlt)
        · rcases ih hlt with ⟨es, hes, rfl⟩ | hall
          · exact .inl ⟨es, hes, rfl⟩
          · exact .inr fun xs ys => List.cons_lt_cons_iff.2 (.inr ⟨rfl, hall xs ys⟩)
  rcases key (String.lt_iff.1 h) with ⟨es, hes, hts⟩ | hall
  · exact .inl ⟨String.ofList es, by simpa [← String.toList_inj] using hes,
      String.toList_inj.1 (by simpa using hts)⟩
  · refine .inr fun x y => ?_
    rw [String.lt_iff, String.toList_append, String.toList_append]
    exact hall x.toList y.toList

theorem beginsWith_of_between {p a b s : String} (h : p ++ a < s) (h' : s < p ++ b) :
    beginsWith p s = true := by
  have between {cs xs ys zs : List Char} (h : cs ++ xs < zs) (h' : zs < cs ++ ys) :
      ∃ rest, zs = cs ++ rest := by
    induction cs generalizing zs with
    | nil => exact ⟨zs, rfl⟩
    | cons c cs ih =>
      cases zs with
      | nil => cases h
      | cons z zs =>
        rw [List.cons_append, List.cons_lt_cons_iff] at h h'
        rcases h with hlt | ⟨rfl, h⟩
        · rcases h' with hlt' | ⟨rfl, -⟩
          · exact absurd hlt' (Char.lt_asymm hlt)
          · exact absurd hlt (Char.lt_irrefl _)
        · obtain ⟨rest, rfl⟩ := ih h ((h'.resolve_left (Char.lt_irrefl _)).2)
          exact ⟨rest, rfl⟩
  rw [String.lt_iff, String.toList_append] at h h'
  obtain ⟨rest, hrest⟩ := between h h'
  refine beginsWith_iff.2 ⟨String.ofList rest, String.toList_inj.1 ?_⟩
  rw [hrest, String.toList_append, String.toList_ofList]

theorem padded_append_lt_iff {width m n : Nat} (hwidth : 0 < width) (hm : m < 10 ^ width)
    (hn : n < 10 ^ width) {a b : String} :
    padded width m ++ a < padded width n ++ b ↔ m < n ∨ m = n ∧ a < b := by
  refine ⟨lt_of_padded_append_lt hwidth hm hn, ?_⟩
  rintro (hlt | ⟨rfl, hlt⟩)
  · rcases lt_trichotomy (padded width m ++ a) (padded width n ++ b) with h | h | h
    · exact h
    · have hlength := (length_padded hwidth hm).trans (length_padded hwidth hn).symm
      rw [← String.toList_inj, String.toList_append, String.toList_append] at h
      have hsame := padded_injective (String.toList_inj.1 (List.append_inj h hlength).1)
      exact absurd hlt (hsame ▸ Nat.lt_irrefl _)
    · rcases lt_of_padded_append_lt hwidth hn hm h with hgt | ⟨rfl, -⟩
      · exact absurd hlt (Nat.lt_asymm hgt)
      · exact absurd hlt (Nat.lt_irrefl _)
  · exact append_lt_append_iff.2 hlt

theorem padded_lt_iff {width m n : Nat} (hwidth : 0 < width) (hm : m < 10 ^ width)
    (hn : n < 10 ^ width) : padded width m < padded width n ↔ m < n := by
  have h := padded_append_lt_iff hwidth hm hn (a := "") (b := "")
  rw [String.append_empty, String.append_empty] at h
  simpa using h

theorem padded_of_le {k n : Nat} (hk : 0 < k) (h : 10 ^ k ≤ n) : padded (k + 1) n = decimal n := by
  have hlength : k < (Nat.toDigits 10 n).length := by
    rw [← Nat.not_le, Nat.length_toDigits_le_iff (by decide) hk]
    exact Nat.not_lt.2 h
  rw [padded, decimal, Nat.sub_eq_zero_of_le hlength]
  rfl

theorem decimal_of_le {n : Nat} (h : 10 ≤ n) :
    decimal n = decimal (n / 10) ++ String.ofList [Nat.digitChar (n % 10)] := by
  rw [decimal, decimal, Nat.toDigits_of_base_le (by decide) h, String.ofList_append]

/-- A number that is too long for a width begins with digits that fill it, and more digits follow. -/
theorem exists_leading {k n : Nat} (h : 10 ^ (k + 1) ≤ n) :
    ∃ lead c rest, 10 ^ k ≤ lead ∧ lead < 10 ^ (k + 1) ∧ Char.isDigit c ∧
      decimal n = decimal lead ++ String.ofList (c :: rest) := by
  induction n using Nat.strong_induction_on with
  | _ n ih =>
    have hten : 10 ≤ n := le_trans (Nat.le_self_pow (Nat.succ_ne_zero k) 10) h
    have hquotient : 10 ^ k ≤ n / 10 := (Nat.le_div_iff_mul_le (by decide)).2 (by rwa [← Nat.pow_succ])
    have hdigit : (Nat.digitChar (n % 10)).isDigit := by
      simpa using Nat.mod_lt n (by decide : 0 < 10)
    by_cases hshort : n / 10 < 10 ^ (k + 1)
    · exact ⟨n / 10, _, [], hquotient, hshort, hdigit, decimal_of_le hten⟩
    · obtain ⟨lead, c, rest, hlow, hhigh, hc, hrest⟩ :=
        ih (n / 10) (Nat.div_lt_self (by omega) (by decide)) (Nat.not_lt.1 hshort)
      refine ⟨lead, c, rest ++ [Nat.digitChar (n % 10)], hlow, hhigh, hc, ?_⟩
      rw [decimal_of_le hten, hrest, String.append_assoc, ← String.ofList_append, List.cons_append]

end Text

end Cabinet
