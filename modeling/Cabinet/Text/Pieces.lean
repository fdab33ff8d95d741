/-! Cutting a text at a character and joining texts with a separator. -/

namespace Cabinet.Text

/-- The pieces between the occurrences of `c`, empty pieces included. -/
def pieces (c : Char) : List Char → List (List Char)
  | [] => [[]]
  | x :: xs =>
    if x = c then [] :: pieces c xs
    else match pieces c xs with
      | [] => [[x]]
      | p :: ps => (x :: p) :: ps

theorem not_mem_of_mem_pieces {c : Char} {xs p : List Char} (h : p ∈ pieces c xs) : c ∉ p := by
  induction xs generalizing p with
  | nil => simp [pieces] at h; simp [h]
  | cons x xs ih =>
    by_cases hx : x = c
    · simp only [pieces, hx, if_true, List.mem_cons] at h
      rcases h with rfl | h
      · simp
      · exact ih h
    · rw [pieces, if_neg hx] at h
      split at h
      · simp at h; simp [h, Ne.symm hx]
      · rename_i q qs hq
        simp only [List.mem_cons] at h
        rcases h with rfl | h
        · have := ih (p := q) (by simp [hq])
          simp [this, Ne.symm hx]
        · exact ih (by simp [hq, h])

theorem pieces_of_not_mem {c : Char} {xs : List Char} (h : c ∉ xs) : pieces c xs = [xs] := by
  induction xs with
  | nil => rfl
  | cons x xs ih =>
    simp only [List.mem_cons, not_or] at h
    rw [pieces, if_neg (Ne.symm h.1), ih h.2]

theorem pieces_append_cons {c : Char} {xs : List Char} (h : c ∉ xs) (ys : List Char) :
    pieces c (xs ++ c :: ys) = xs :: pieces c ys := by
  induction xs with
  | nil => simp [pieces]
  | cons x xs ih =>
    simp only [List.mem_cons, not_or] at h
    rw [List.cons_append, pieces, if_neg (Ne.symm h.1), ih h.2]

def splitAt (c : Char) (s : String) : List String := (pieces c s.toList).map String.ofList

def joinWith (separator : String) : List String → String
  | [] => ""
  | [s] => s
  | s :: t :: rest => s ++ separator ++ joinWith separator (t :: rest)

@[simp] theorem joinWith_nil (separator : String) : joinWith separator [] = "" := rfl

@[simp] theorem joinWith_singleton (separator s : String) : joinWith separator [s] = s := rfl

theorem joinWith_cons (separator s : String) {rest : List String} (h : rest ≠ []) :
    joinWith separator (s :: rest) = s ++ separator ++ joinWith separator rest := by
  cases rest with
  | nil => exact absurd rfl h
  | cons t rest => rfl

theorem joinWith_append (separator : String) {ss ts : List String} (hs : ss ≠ []) (ht : ts ≠ []) :
    joinWith separator (ss ++ ts) =
      joinWith separator ss ++ separator ++ joinWith separator ts := by
  induction ss with
  | nil => exact absurd rfl hs
  | cons s ss ih =>
    cases ss with
    | nil => simp [joinWith_cons _ _ ht]
    | cons s' ss =>
      rw [List.cons_append, joinWith_cons _ _ (by simp), ih (by simp),
        joinWith_cons separator s (List.cons_ne_nil s' ss)]
      simp only [String.append_assoc]

theorem not_mem_joinWith {c : Char} {separator : String} {ss : List String}
    (hseparator : c ∉ separator.toList) (h : ∀ s ∈ ss, c ∉ s.toList) :
    c ∉ (joinWith separator ss).toList := by
  induction ss with
  | nil => simp
  | cons s ss ih =>
    obtain ⟨hs, hss⟩ := List.forall_mem_cons.1 h
    cases ss with
    | nil => exact hs
    | cons s' ss =>
      rw [joinWith_cons separator s (List.cons_ne_nil s' ss)]
      simp [hs, hseparator, ih hss]

def cutList? (c : Char) : List Char → Option (List Char × List Char)
  | [] => none
  | x :: xs => if x = c then some ([], xs) else (cutList? c xs).map fun (a, b) => (x :: a, b)

theorem cutList?_eq_some_iff (c : Char) (xs a b : List Char) :
    cutList? c xs = some (a, b) ↔ xs = a ++ c :: b ∧ c ∉ a := by
  induction xs generalizing a with
  | nil => simp [cutList?]
  | cons x xs ih =>
    by_cases h : x = c
    · subst h
      cases a with
      | nil => simp [cutList?]
      | cons y a => simp +contextual [cutList?]
    · cases a with
      | nil => simp [cutList?, h]
      | cons y a =>
        simp only [cutList?, h, if_false, Option.map_eq_some_iff, Prod.exists, Prod.mk.injEq,
          List.cons.injEq, List.cons_append, List.mem_cons, not_or]
        constructor
        · rintro ⟨a', b', hab, ⟨rfl, rfl⟩, rfl⟩
          obtain ⟨h1, h2⟩ := (ih a').1 hab
          exact ⟨⟨rfl, h1⟩, Ne.symm h, h2⟩
        · rintro ⟨⟨rfl, h1⟩, -, h2⟩
          exact ⟨a, b, (ih a).2 ⟨h1, h2⟩, ⟨rfl, rfl⟩, rfl⟩

def cut? (c : Char) (s : String) : Option (String × String) :=
  (cutList? c s.toList).map fun (a, b) => (String.ofList a, String.ofList b)

theorem cut?_eq_some_iff {c : Char} {s a b : String} :
    cut? c s = some (a, b) ↔ s = a ++ c.toString ++ b ∧ c ∉ a.toList := by
  rw [cut?, Option.map_eq_some_iff, ← String.toList_inj]
  constructor
  · rintro ⟨⟨x, y⟩, h, hxy⟩
    obtain ⟨rfl, rfl⟩ := Prod.mk.inj hxy
    simpa using (cutList?_eq_some_iff _ _ _ _).1 h
  · rintro ⟨h, hc⟩
    exact ⟨(a.toList, b.toList), (cutList?_eq_some_iff _ _ _ _).2 ⟨by simpa using h, hc⟩, by simp⟩

theorem cut?_eq_none_iff {c : Char} {s : String} : cut? c s = none ↔ c ∉ s.toList := by
  constructor
  · intro hnone hc
    obtain ⟨before, after, hs, hbefore⟩ := List.eq_append_cons_of_mem hc
    have hsome := (cutList?_eq_some_iff c s.toList before after).2 ⟨hs, hbefore⟩
    simp [cut?, hsome] at hnone
  · intro hc
    refine Option.eq_none_iff_forall_ne_some.2 fun ⟨a, b⟩ hsome => hc ?_
    rw [(cut?_eq_some_iff.1 hsome).1]
    simp

end Cabinet.Text
