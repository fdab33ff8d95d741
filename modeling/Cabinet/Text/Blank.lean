import Cabinet.Text.Affix

/-! Blank characters, the Unicode `White_Space` property, and trimming. Main statements: a text is
blank exactly when trimming leaves nothing, and trimming takes away no part without blanks. -/

namespace Cabinet.Text

def isBlank (c : Char) : Bool :=
  let n := c.toNat
  (9 ≤ n && n ≤ 13) || n = 0x20 || n = 0x85 || n = 0xA0 || n = 0x1680 ||
    (0x2000 ≤ n && n ≤ 0x200A) || n = 0x2028 || n = 0x2029 || n = 0x202F || n = 0x205F ||
    n = 0x3000

def trimLeft (cs : List Char) : List Char := cs.dropWhile isBlank

def trimRight (cs : List Char) : List Char := (trimLeft cs.reverse).reverse

def trim (s : String) : String := String.ofList (trimRight (trimLeft s.toList))

def allBlank (s : String) : Bool := s.toList.all isBlank

theorem trimLeft_eq_nil_iff (cs : List Char) : trimLeft cs = [] ↔ cs.all isBlank := by
  rw [trimLeft]
  induction cs with
  | nil => simp
  | cons c cs ih =>
    rw [List.dropWhile_cons, List.all_cons]
    cases isBlank c with
    | true => exact ih
    | false => simp

theorem trimRight_eq_nil_iff (cs : List Char) : trimRight cs = [] ↔ cs.all isBlank := by
  simp [trimRight, trimLeft_eq_nil_iff]

theorem trim_eq_empty_iff (s : String) : trim s = "" ↔ allBlank s := by
  have h : trim s = "" ↔ trimRight (trimLeft s.toList) = [] := by
    rw [← String.toList_inj]; simp [trim]
  rw [h, trimRight_eq_nil_iff, allBlank]
  generalize s.toList = cs
  induction cs with
  | nil => simp [trimLeft]
  | cons c cs ih =>
    by_cases h : isBlank c = true
    · simpa [trimLeft, h] using ih
    · simp [trimLeft, h]

theorem trimLeft_around {part : List Char} (hpart : ∀ c ∈ part, isBlank c = false)
    (hne : part ≠ []) (before after : List Char) :
    ∃ front, trimLeft (before ++ part ++ after) = front ++ part ++ after := by
  induction before with
  | nil =>
    obtain ⟨c, rest, rfl⟩ := List.exists_cons_of_ne_nil hne
    exact ⟨[], by simp [trimLeft, hpart c]⟩
  | cons b before ih =>
    cases hb : isBlank b with
    | true => simpa [trimLeft, hb] using ih
    | false => exact ⟨b :: before, by simp [trimLeft, hb]⟩

theorem trimRight_around {part : List Char} (hpart : ∀ c ∈ part, isBlank c = false)
    (hne : part ≠ []) (before after : List Char) :
    ∃ back, trimRight (before ++ part ++ after) = before ++ part ++ back := by
  have hreverse : (before ++ part ++ after).reverse =
      after.reverse ++ part.reverse ++ before.reverse := by simp
  have hblank : ∀ c ∈ part.reverse, isBlank c = false := by simpa using hpart
  obtain ⟨front, hfront⟩ := trimLeft_around hblank (by simpa using hne) after.reverse before.reverse
  exact ⟨front.reverse, by rw [trimRight, hreverse, hfront]; simp⟩

theorem mentions_trim {part s : String} (hpart : ∀ c ∈ part.toList, isBlank c = false)
    (hne : part ≠ "") (h : mentions part s) : mentions part (trim s) := by
  obtain ⟨before, after, hs⟩ := (occursIn_iff _ _).1 h
  have hne : part.toList ≠ [] := by simpa using hne
  obtain ⟨front, hfront⟩ := trimLeft_around hpart hne before after
  obtain ⟨back, hback⟩ := trimRight_around hpart hne front after
  exact (occursIn_iff _ _).2 ⟨front, back, by rw [trim, String.toList_ofList, hs, hfront, hback]⟩

end Cabinet.Text
