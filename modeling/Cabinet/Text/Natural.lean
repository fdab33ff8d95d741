import Cabinet.Text.Affix

/-! Natural numbers as decimal text: reading with an upper bound, and writing padded with zeros. Main
statement: the decimal text of a number is read as that number. -/

namespace Cabinet.Text

def digit? (c : Char) : Option Nat :=
  if '0' ≤ c ∧ c ≤ '9' then some (c.toNat - '0'.toNat) else none

def isDigit (c : Char) : Bool := (digit? c).isSome

def ofDigits (cs : List Char) : Nat :=
  cs.foldl (fun n c => n * 10 + (digit? c).getD 0) 0

def digits? (cs : List Char) : Option Nat :=
  if cs ≠ [] ∧ cs.all isDigit then some (ofDigits cs) else none

/-- Reads digits after an optional plus sign; a number of `bound` or more is refused. -/
def natural? (bound : Nat) (s : String) : Option Nat :=
  let digits := match s.toList with
    | '+' :: rest => rest
    | cs => cs
  (digits? digits).filter (· < bound)

theorem lt_of_natural? {bound n : Nat} {s : String} (h : natural? bound s = some n) :
    n < bound := by
  simp only [natural?, Option.filter_eq_some_iff] at h
  simpa using h.2

def padded (width n : Nat) : String :=
  let digits := (Nat.toDigits 10 n)
  String.ofList (List.replicate (width - digits.length) '0' ++ digits)

def decimal (n : Nat) : String := String.ofList (Nat.toDigits 10 n)

theorem le_length_padded (width n : Nat) : width ≤ (padded width n).toList.length := by
  simp [padded]; omega

theorem digit?_of_isDigit {c : Char} (h : c.isDigit) : digit? c = some (c.toNat - '0'.toNat) := by
  have hrange : '0' ≤ c ∧ c ≤ '9' := by simpa [Char.isDigit, Char.le_def] using h
  rw [digit?, if_pos hrange]

theorem isDigit_of_isDigit {c : Char} (h : c.isDigit) : isDigit c := by
  rw [isDigit, digit?_of_isDigit h]
  rfl

theorem foldl_digits {cs : List Char} (h : ∀ c ∈ cs, c.isDigit) (n : Nat) :
    cs.foldl (fun n c => n * 10 + (digit? c).getD 0) n = Nat.ofDigitChars 10 cs n := by
  induction cs generalizing n with
  | nil => rfl
  | cons c cs ih =>
    have hc := digit?_of_isDigit (h c List.mem_cons_self)
    rw [List.foldl_cons, ih fun d hd => h d (List.mem_cons_of_mem c hd), hc, Nat.mul_comm]
    rfl

theorem isDigit_of_mem_toDigits {n : Nat} {c : Char} (h : c ∈ Nat.toDigits 10 n) : c.isDigit :=
  Nat.isDigit_of_mem_toDigits (by decide) (by decide) h

theorem digits?_toDigits (n : Nat) : digits? (Nat.toDigits 10 n) = some n := by
  have hall : (Nat.toDigits 10 n).all isDigit :=
    List.all_eq_true.2 fun _ hc => isDigit_of_isDigit (isDigit_of_mem_toDigits hc)
  have hvalue : ofDigits (Nat.toDigits 10 n) = n :=
    (foldl_digits (fun _ => isDigit_of_mem_toDigits) 0).trans Nat.ofDigitChars_ten_toDigits
  rw [digits?, if_pos ⟨Nat.toDigits_ne_nil, hall⟩, hvalue]

theorem natural?_decimal {bound n : Nat} (h : n < bound) : natural? bound (decimal n) = some n := by
  have hdigits := digits?_toDigits n
  have hsign : ∀ rest, Nat.toDigits 10 n ≠ '+' :: rest := by
    intro rest he
    have hplus : ('+').isDigit := isDigit_of_mem_toDigits (n := n) (he ▸ List.mem_cons_self)
    revert hplus
    decide
  unfold natural? decimal
  rw [String.toList_ofList]
  split
  · rename_i rest he
    exact absurd he (hsign rest)
  · simp [hdigits, h]

end Cabinet.Text
