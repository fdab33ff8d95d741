/-! What is left of a text after a given front or before a given end. -/

namespace Cabinet.Text

def afterFront? {α : Type} [DecidableEq α] : List α → List α → Option (List α)
  | [], xs => some xs
  | _ :: _, [] => none
  | a :: front, x :: xs => if a = x then afterFront? front xs else none

theorem afterFront?_eq_some_iff {α : Type} [DecidableEq α] (front xs rest : List α) :
    afterFront? front xs = some rest ↔ xs = front ++ rest := by
  induction front generalizing xs with
  | nil => simp [afterFront?]
  | cons a front ih =>
    cases xs with
    | nil => simp [afterFront?]
    | cons x xs =>
      by_cases h : a = x
      · simp [afterFront?, h, ih]
      · simp [afterFront?, h, Ne.symm h]

def dropFront? (front s : String) : Option String :=
  (afterFront? front.toList s.toList).map String.ofList

theorem dropFront?_eq_some_iff {front s rest : String} :
    dropFront? front s = some rest ↔ s = front ++ rest := by
  rw [dropFront?, Option.map_eq_some_iff, ← String.toList_inj, String.toList_append]
  constructor
  · rintro ⟨cs, h, rfl⟩
    simpa using (afterFront?_eq_some_iff _ _ _).1 h
  · intro h
    exact ⟨rest.toList, (afterFront?_eq_some_iff _ _ _).2 h, by simp⟩

@[simp] theorem dropFront?_append (front rest : String) :
    dropFront? front (front ++ rest) = some rest :=
  dropFront?_eq_some_iff.2 rfl

theorem dropFront?_eq_none_iff {front s : String} :
    dropFront? front s = none ↔ ∀ rest, s ≠ front ++ rest := by
  rw [Option.eq_none_iff_forall_ne_some]
  exact forall_congr' fun rest => not_congr dropFront?_eq_some_iff

theorem afterFront?_of_append_eq {α : Type} [DecidableEq α] {p q a b : List α}
    (h : p ++ a = q ++ b) : (afterFront? p q).isSome ∨ (afterFront? q p).isSome := by
  simp only [Option.isSome_iff_exists, afterFront?_eq_some_iff]
  rcases List.append_eq_append_iff.1 h with ⟨c, hc, -⟩ | ⟨c, hc, -⟩
  · exact .inl ⟨c, hc⟩
  · exact .inr ⟨c, hc⟩

def dropBack? (back s : String) : Option String :=
  (afterFront? back.toList.reverse s.toList.reverse).map fun cs => String.ofList cs.reverse

theorem dropBack?_eq_some_iff {back s rest : String} :
    dropBack? back s = some rest ↔ s = rest ++ back := by
  rw [dropBack?, Option.map_eq_some_iff, ← String.toList_inj, String.toList_append]
  constructor
  · rintro ⟨cs, h, rfl⟩
    simpa using congrArg List.reverse ((afterFront?_eq_some_iff _ _ _).1 h)
  · intro h
    exact ⟨rest.toList.reverse, (afterFront?_eq_some_iff _ _ _).2 (by simp [h]), by simp⟩

def beginsWith (front s : String) : Bool := (dropFront? front s).isSome

theorem beginsWith_iff {front s : String} :
    beginsWith front s = true ↔ ∃ rest, s = front ++ rest := by
  rw [beginsWith, Option.isSome_iff_exists]
  exact exists_congr fun rest => dropFront?_eq_some_iff

@[simp] theorem beginsWith_append (front rest : String) : beginsWith front (front ++ rest) = true :=
  beginsWith_iff.2 ⟨rest, rfl⟩

theorem append_ne_append {p q : String} (h : beginsWith p q = false)
    (h' : beginsWith q p = false) (a b : String) : p ++ a ≠ q ++ b := by
  intro e
  rw [← String.toList_inj, String.toList_append, String.toList_append] at e
  rcases afterFront?_of_append_eq e with hs | hs
  · simp [beginsWith, dropFront?, hs] at h
  · simp [beginsWith, dropFront?, hs] at h'

def endsWith (back s : String) : Bool := (dropBack? back s).isSome

theorem endsWith_iff {back s : String} : endsWith back s = true ↔ ∃ rest, s = rest ++ back := by
  rw [endsWith, Option.isSome_iff_exists]
  exact exists_congr fun rest => dropBack?_eq_some_iff

def occursIn {α : Type} [DecidableEq α] (part : List α) : List α → Bool
  | [] => (afterFront? part []).isSome
  | x :: xs => (afterFront? part (x :: xs)).isSome || occursIn part xs

theorem occursIn_iff {α : Type} [DecidableEq α] (part xs : List α) :
    occursIn part xs = true ↔ ∃ before after, xs = before ++ part ++ after := by
  induction xs with
  | nil =>
    simp only [occursIn, Option.isSome_iff_exists, afterFront?_eq_some_iff]
    constructor
    · rintro ⟨rest, h⟩
      exact ⟨[], rest, by simpa using h⟩
    · rintro ⟨before, after, h⟩
      have h := h.symm
      simp only [List.append_eq_nil_iff] at h
      exact ⟨[], by simp [h.1.2]⟩
  | cons x xs ih =>
    simp only [occursIn, Bool.or_eq_true, ih, Option.isSome_iff_exists, afterFront?_eq_some_iff]
    constructor
    · rintro (⟨rest, h⟩ | ⟨before, after, h⟩)
      · exact ⟨[], rest, by simpa using h⟩
      · exact ⟨x :: before, after, by simp [h]⟩
    · rintro ⟨before, after, h⟩
      cases before with
      | nil => exact .inl ⟨after, by simpa using h⟩
      | cons y before =>
        simp only [List.cons_append, List.cons.injEq] at h
        exact .inr ⟨before, after, h.2⟩

def mentions (part s : String) : Bool := occursIn part.toList s.toList

theorem mentions_iff {part s : String} :
    mentions part s = true ↔ ∃ before after, s = before ++ part ++ after := by
  rw [mentions, occursIn_iff]
  constructor
  · rintro ⟨before, after, h⟩
    exact ⟨String.ofList before, String.ofList after, by rw [← String.toList_inj]; simp [h]⟩
  · rintro ⟨before, after, rfl⟩
    exact ⟨before.toList, after.toList, by simp⟩

end Cabinet.Text
