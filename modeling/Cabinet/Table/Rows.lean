import Cabinet.Record.Row

/-! Rows in the order of their addresses, at most one at each. Main statements: a write is read
back, and leaves what is read elsewhere alone. -/

namespace Cabinet

structure Rows where
  toList : List Row
  increasing : toList.Pairwise (fun a b => a.address < b.address)
  deriving DecidableEq

namespace Rows

def empty : Rows := ⟨[], .nil⟩

instance : Inhabited Rows := ⟨empty⟩

@[ext] theorem ext {a b : Rows} (h : a.toList = b.toList) : a = b := by
  cases a
  cases b
  simp_all

def size (rows : Rows) : Nat := rows.toList.length

def get? (rows : Rows) (a : Address) : Option Row := rows.toList.find? (·.address = a)

def insertList (row : Row) : List Row → List Row
  | [] => [row]
  | r :: rs =>
    if r.address < row.address then r :: insertList row rs
    else if row.address < r.address then row :: r :: rs
    else row :: rs

theorem mem_insertList {row x : Row} {rs : List Row} (h : x ∈ insertList row rs) :
    x = row ∨ x ∈ rs := by
  induction rs with
  | nil => simpa [insertList] using h
  | cons r rs ih =>
    rw [insertList] at h
    split at h
    · rcases List.mem_cons.1 h with rfl | h
      · simp
      · rcases ih h with h | h <;> simp [h]
    · split at h <;> rcases List.mem_cons.1 h with h | h <;> simp_all

theorem increasing_insertList {row : Row} {rs : List Row}
    (h : rs.Pairwise fun a b => a.address < b.address) :
    (insertList row rs).Pairwise fun a b => a.address < b.address := by
  induction rs with
  | nil => simp [insertList]
  | cons r rs ih =>
    obtain ⟨hr, hrs⟩ := List.pairwise_cons.1 h
    rw [insertList]
    split
    · rename_i hlt
      refine List.pairwise_cons.2 ⟨fun x hx => ?_, ih hrs⟩
      rcases mem_insertList hx with rfl | hx
      · exact hlt
      · exact hr x hx
    · split
      · rename_i hlt
        refine List.pairwise_cons.2 ⟨fun x hx => ?_, h⟩
        rcases List.mem_cons.1 hx with rfl | hx
        · exact hlt
        · exact Address.lt_trans hlt (hr x hx)
      · rename_i h1 h2
        refine List.pairwise_cons.2 ⟨fun x hx => ?_, hrs⟩
        rw [Address.eq_of_not_lt h2 h1]
        exact hr x hx

def insert (rows : Rows) (row : Row) : Rows :=
  ⟨insertList row rows.toList, increasing_insertList rows.increasing⟩

def erase (rows : Rows) (a : Address) : Rows :=
  ⟨rows.toList.filter (·.address ≠ a), rows.increasing.filter _⟩

theorem find?_insertList (row : Row) (rs : List Row) (a : Address) :
    (insertList row rs).find? (·.address = a) =
      if row.address = a then some row else rs.find? (·.address = a) := by
  induction rs with
  | nil => by_cases h : row.address = a <;> simp [insertList, h]
  | cons r rs ih =>
    rw [insertList]
    split
    · rename_i hlt
      by_cases hr : r.address = a
      · have : row.address ≠ a := fun h => Address.ne_of_lt hlt (hr.trans h.symm)
        simp [hr, this]
      · simp [hr, ih]
    · rename_i h1
      split
      · by_cases h : row.address = a <;> simp [h]
      · rename_i h2
        have heq : row.address = r.address := Address.eq_of_not_lt h2 h1
        by_cases h : row.address = a
        · simp [h]
        · have : r.address ≠ a := heq ▸ h
          simp [h, this]

theorem get?_insert (rows : Rows) (row : Row) (a : Address) :
    (rows.insert row).get? a = if row.address = a then some row else rows.get? a :=
  find?_insertList row rows.toList a

theorem get?_erase (rows : Rows) (a b : Address) :
    (rows.erase a).get? b = if b = a then none else rows.get? b := by
  simp only [get?, erase, List.find?_filter]
  split
  · rename_i h
    subst h
    simp
  · rename_i h
    congr 1
    funext r
    by_cases hr : r.address = b <;> simp_all

theorem get?_eq_some_iff {rows : Rows} {a : Address} {row : Row} :
    rows.get? a = some row ↔ row ∈ rows.toList ∧ row.address = a := by
  obtain ⟨rs, h⟩ := rows
  simp only [get?]
  induction rs with
  | nil => simp
  | cons r rs ih =>
    obtain ⟨hr, hrs⟩ := List.pairwise_cons.1 h
    rw [List.find?_cons]
    by_cases hra : r.address = a
    · simp only [hra, decide_true, Option.some.injEq, List.mem_cons]
      constructor
      · rintro rfl
        exact ⟨.inl rfl, hra⟩
      · rintro ⟨rfl | hmem, hrow⟩
        · rfl
        · exact absurd (hra.trans hrow.symm) (Address.ne_of_lt (hr row hmem))
    · simp only [hra, decide_false, List.mem_cons]
      rw [ih hrs]
      constructor
      · rintro ⟨hm, ha⟩
        exact ⟨.inr hm, ha⟩
      · rintro ⟨rfl | hm, ha⟩
        · exact absurd ha hra
        · exact ⟨hm, ha⟩

end Rows

end Cabinet
