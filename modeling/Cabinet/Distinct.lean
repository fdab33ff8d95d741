import Cabinet.Sorting

/-! Lists without repetition. -/

namespace Cabinet

variable {α β : Type}

/-- The first element with each key, in the order of the list. -/
def firstsBy [DecidableEq β] (key : α → β) : List α → List α
  | [] => []
  | a :: as => a :: (firstsBy key as).filter (key · ≠ key a)

def firsts [DecidableEq α] (as : List α) : List α := firstsBy (fun a => a) as

@[simp] theorem mem_firsts [DecidableEq α] {a : α} {as : List α} : a ∈ firsts as ↔ a ∈ as := by
  rw [firsts]
  induction as with
  | nil => simp [firstsBy]
  | cons b as ih => by_cases h : a = b <;> simp [firstsBy, h, ih]

theorem nodup_firsts [DecidableEq α] (as : List α) : (firsts as).Nodup := by
  rw [firsts]
  induction as with
  | nil => simp [firstsBy]
  | cons a as ih =>
    rw [firstsBy, List.nodup_cons]
    exact ⟨by simp [List.mem_filter], ih.filter _⟩

/-- The first of neighbours with the same key. -/
def firstOfRuns [DecidableEq β] (key : α → β) : List α → List α
  | [] => []
  | [a] => [a]
  | a :: b :: as =>
    match firstOfRuns key (b :: as) with
    | [] => [a]
    | c :: cs => if key c = key a then a :: cs else a :: c :: cs

def distinct [DecidableEq α] (before : α → α → Bool) (as : List α) : List α :=
  sortBy before (firsts as)

def onlyIf (condition : Prop) [Decidable condition] (a : α) : List α :=
  if condition then [a] else []

theorem onlyIf_eq_nil_iff {condition : Prop} [Decidable condition] {a : α} :
    onlyIf condition a = [] ↔ ¬ condition := by
  simp [onlyIf]

end Cabinet
