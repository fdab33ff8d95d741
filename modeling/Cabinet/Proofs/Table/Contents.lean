import Mathlib.Data.List.Sort
import Cabinet.Table.Basic

/-! The rows of a table as a set. Main statements: what is in a table after each write, and that
tables with the same rows are equal. -/

namespace Cabinet

namespace Rows

theorem nodup (rows : Rows) : rows.toList.Nodup :=
  rows.increasing.imp fun hlt e => Address.ne_of_lt hlt (congrArg Row.address e)

theorem eq_of_mem_iff {a b : Rows} (h : ∀ row, row ∈ a.toList ↔ row ∈ b.toList) : a = b := by
  have : Std.Asymm fun a b : Row => a.address < b.address := ⟨fun _ _ => Address.lt_asymm⟩
  exact ext (a.increasing.eq_of_mem_iff b.increasing h)

end Rows

namespace Table

instance : Membership Row Table := ⟨fun t row => row ∈ t.rows.toList⟩

instance (row : Row) (t : Table) : Decidable (row ∈ t) :=
  inferInstanceAs (Decidable (row ∈ t.rows.toList))

variable {t : Table} {row r : Row} {a : Address}

theorem mem_toList : row ∈ t.rows.toList ↔ row ∈ t := Iff.rfl

theorem get?_eq_some_iff : t.get? a = some row ↔ row ∈ t ∧ row.address = a :=
  Rows.get?_eq_some_iff

theorem get?_address (h : row ∈ t) : t.get? row.address = some row :=
  get?_eq_some_iff.2 ⟨h, rfl⟩

theorem get?_eq_none_iff : t.get? a = none ↔ ∀ row ∈ t, row.address ≠ a := by
  simp only [Option.eq_none_iff_forall_ne_some, ne_eq, get?_eq_some_iff, not_and]

theorem eq_of_address_eq (h : row ∈ t) (h' : r ∈ t) (ha : row.address = r.address) : row = r := by
  have := get?_address h
  rw [ha, get?_address h'] at this
  exact (Option.some.inj this).symm

theorem mem_put : r ∈ t.put row ↔ r = row ∨ r ∈ t ∧ r.address ≠ row.address := by
  have key : r ∈ t.put row ↔ (t.put row).get? r.address = some r :=
    ⟨get?_address, fun h => (get?_eq_some_iff.1 h).1⟩
  rw [key, get?, put, Rows.get?_insert]
  split
  · rename_i h
    simp [h, eq_comm]
  · rename_i h
    have hne : r ≠ row := fun e => h (congrArg Row.address e.symm)
    have hiff : t.rows.get? r.address = some r ↔ r ∈ t ∧ r.address = r.address := get?_eq_some_iff
    simp [hiff, hne, Ne.symm h]

theorem mem_erase : r ∈ t.erase a ↔ r ∈ t ∧ r.address ≠ a := by
  show r ∈ t.rows.toList.filter (·.address ≠ a) ↔ _
  simp [List.mem_filter, mem_toList]

theorem mem_eraseAll {rows : List Row} :
    r ∈ t.eraseAll rows ↔ r ∈ t ∧ ∀ x ∈ rows, r.address ≠ x.address := by
  induction rows generalizing t with
  | nil => simp [eraseAll]
  | cons x rows ih =>
    have := ih (t := t.erase x.address)
    simp only [eraseAll, List.foldl_cons] at this ⊢
    rw [this, mem_erase]
    simp only [List.mem_cons, forall_eq_or_imp, and_assoc]

theorem mem_eraseAll_of_subset {rows : List Row} (h : ∀ x ∈ rows, x ∈ t) :
    r ∈ t.eraseAll rows ↔ r ∈ t ∧ r ∉ rows := by
  rw [mem_eraseAll]
  refine and_congr_right fun hr => ⟨fun hne hmem => hne r hmem rfl, fun hnot x hx hax => ?_⟩
  rw [eq_of_address_eq hr (h x hx) hax] at hnot
  exact hnot hx

def lastAt (rows : List Row) (a : Address) : Option Row := rows.reverse.find? (·.address = a)

theorem lastAt_cons (row : Row) (rows : List Row) (a : Address) : lastAt (row :: rows) a =
    (lastAt rows a).or (if row.address = a then some row else none) := by
  unfold lastAt
  rw [List.reverse_cons, List.find?_append]
  by_cases h : row.address = a <;> simp [h]

theorem lastAt_append (rows rows' : List Row) (a : Address) :
    lastAt (rows ++ rows') a = (lastAt rows' a).or (lastAt rows a) := by
  unfold lastAt
  rw [List.reverse_append, List.find?_append]

theorem mem_of_lastAt {rows : List Row} (h : lastAt rows a = some row) :
    row ∈ rows ∧ row.address = a := by
  have hmem := List.mem_of_find?_eq_some h
  have haddress := List.find?_some h
  exact ⟨List.mem_reverse.1 hmem, of_decide_eq_true haddress⟩

theorem get?_putAll (t : Table) (rows : List Row) (a : Address) :
    (t.putAll rows).get? a = (lastAt rows a).or (t.get? a) := by
  induction rows generalizing t with
  | nil => rfl
  | cons row rows ih =>
    -- the induction is on the writes that follow, over whatever table the first one leaves
    have hrest := ih (t.put row)
    have hfirst : (t.put row).get? a = if row.address = a then some row else t.get? a :=
      Rows.get?_insert t.rows row a
    have hcons : t.putAll (row :: rows) = (t.put row).putAll rows := rfl
    rw [hcons, hrest, hfirst, lastAt_cons, Option.or_assoc]
    by_cases h : row.address = a <;> simp [h]

theorem lastAt_or_eq_some_iff {rows : List Row}
    (same : ∀ x ∈ rows, x.address = r.address → x = r) :
    (lastAt rows r.address).or (t.get? r.address) = some r ↔ r ∈ t ∨ r ∈ rows := by
  cases hlast : lastAt rows r.address with
  | none =>
    have hnot : r ∉ rows := by
      intro hmem
      have hnone := List.find?_eq_none.1 hlast r (List.mem_reverse.2 hmem)
      simp at hnone
    rw [Option.none_or, get?_eq_some_iff, and_iff_left rfl, or_iff_left hnot]
  | some x =>
    obtain ⟨hx, ha⟩ := mem_of_lastAt hlast
    obtain rfl := same x hx ha
    exact iff_of_true rfl (.inr hx)

theorem mem_putAll {rows : List Row} (same : ∀ x ∈ rows, x.address = r.address → x = r) :
    r ∈ t.putAll rows ↔ r ∈ t ∨ r ∈ rows := by
  rw [← lastAt_or_eq_some_iff same, ← get?_putAll, get?_eq_some_iff, and_iff_left rfl]

theorem put_of_mem (h : row ∈ t) : t.put row = t := by
  have : t.rows.insert row = t.rows := by
    apply Rows.eq_of_mem_iff
    intro r
    show r ∈ t.put row ↔ r ∈ t
    rw [mem_put]
    constructor
    · rintro (rfl | ⟨hr, -⟩) <;> assumption
    · intro hr
      by_cases ha : r.address = row.address
      · exact .inl (eq_of_address_eq hr h ha)
      · exact .inr ⟨hr, ha⟩
  rw [put, this]

theorem putAll_of_forall_mem {rows : List Row} (h : ∀ row ∈ rows, row ∈ t) : t.putAll rows = t := by
  induction rows with
  | nil => rfl
  | cons row rows ih =>
    rw [putAll, List.foldl_cons, put_of_mem (h row List.mem_cons_self)]
    exact ih fun r hr => h r (List.mem_cons_of_mem row hr)

end Table

end Cabinet
