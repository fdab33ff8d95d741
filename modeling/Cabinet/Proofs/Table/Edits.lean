import Cabinet.Proofs.Table.Contents
import Cabinet.Store.Lifecycle

/-! Edits confined to some rows: new rows are among them, and rows at other addresses stay. Main
statements: writes of such rows are confined to them, and so are edits one after another. -/

namespace Cabinet

/-- The second table comes from the first by writing and erasing at addresses of rows with `P`. -/
structure Table.Edits (P : Row → Prop) (T T' : Table) : Prop where
  new : ∀ row ∈ T', row ∈ T ∨ P row
  kept : ∀ row, (∀ r, P r → r.address ≠ row.address) → (row ∈ T' ↔ row ∈ T)
  name : T'.name = T.name
  maxBatchSize : T'.maxBatchSize = T.maxBatchSize
  others : T'.others = T.others

namespace Table.Edits

variable {P Q : Row → Prop} {T T' T'' : Table} {row : Row}

theorem refl (T : Table) : T.Edits P T where
  new _ h := .inl h
  kept _ _ := Iff.rfl
  name := rfl
  maxBatchSize := rfl
  others := rfl

theorem trans (h : T.Edits P T') (h' : T'.Edits P T'') : T.Edits P T'' where
  new row hrow := (h'.new row hrow).elim (h.new row) .inr
  kept row hrow := (h'.kept row hrow).trans (h.kept row hrow)
  name := h'.name.trans h.name
  maxBatchSize := h'.maxBatchSize.trans h.maxBatchSize
  others := h'.others.trans h.others

theorem mono (h : T.Edits P T') (hPQ : ∀ row, P row → Q row) : T.Edits Q T' where
  new row hrow := (h.new row hrow).imp_right (hPQ row)
  kept row hrow := h.kept row fun r hr => hrow r (hPQ r hr)
  name := h.name
  maxBatchSize := h.maxBatchSize
  others := h.others

theorem counted (h : T.Edits P T') (n : Nat) : T.Edits P { T' with batchCalls := n } where
  new := h.new
  kept := h.kept
  name := h.name
  maxBatchSize := h.maxBatchSize
  others := h.others

theorem put (h : P row) : T.Edits P (T.put row) where
  new r hr := (mem_put.1 hr).elim (fun e => .inr (e ▸ h)) fun hr => .inl hr.1
  kept r hr := by
    rw [mem_put]
    have hne := (hr row h).symm
    refine ⟨fun h => h.elim (fun e => absurd (e ▸ rfl) hne) And.left, fun h => .inr ⟨h, hne⟩⟩
  name := rfl
  maxBatchSize := rfl
  others := rfl

theorem erase (h : P row) : T.Edits P (T.erase row.address) where
  new r hr := .inl (mem_erase.1 hr).1
  kept r hr := by
    rw [mem_erase]
    exact ⟨And.left, fun h' => ⟨h', (hr row h).symm⟩⟩
  name := rfl
  maxBatchSize := rfl
  others := rfl

theorem foldl {α : Type} {step : Table → α → Table} {as : List α}
    (h : ∀ a ∈ as, ∀ T : Table, T.Edits P (step T a)) (T : Table) :
    T.Edits P (as.foldl step T) := by
  induction as generalizing T with
  | nil => exact refl T
  | cons a as ih =>
    have hfirst := h a List.mem_cons_self T
    exact hfirst.trans (ih (fun b hb => h b (List.mem_cons_of_mem a hb)) (step T a))

theorem putAll {rows : List Row} (h : ∀ row ∈ rows, P row) (T : Table) :
    T.Edits P (T.putAll rows) :=
  foldl (fun row hrow _ => put (h row hrow)) T

theorem eraseAll {rows : List Row} (h : ∀ row ∈ rows, P row) (T : Table) :
    T.Edits P (T.eraseAll rows) :=
  foldl (fun row hrow _ => erase (h row hrow)) T

theorem move {moves : List (Address × Row)}
    (h : ∀ m ∈ moves, P m.2 ∧ ∃ row, P row ∧ row.address = m.1) (T : Table) :
    T.Edits P (T.move moves) := by
  refine foldl (fun m hm T => ?_) T
  obtain ⟨hput, row, hrow, ha⟩ := h m hm
  have := (put hput).trans (erase (T := T.put m.2) hrow)
  rwa [ha] at this

theorem foldl_of_keeps {α : Type} {I : Table → Prop} {step : Table → α → Table} {as : List α}
    (h : ∀ a ∈ as, ∀ T : Table, I T → T.Edits P (step T a))
    (keep : ∀ T T' : Table, I T → T.Edits P T' → I T') {T : Table} (hT : I T) :
    T.Edits P (as.foldl step T) := by
  induction as generalizing T with
  | nil => exact refl T
  | cons a as ih =>
    have hfirst := h a List.mem_cons_self T hT
    have hrest := ih (fun b hb => h b (List.mem_cons_of_mem a hb)) (keep T (step T a) hT hfirst)
    exact hfirst.trans hrest

end Table.Edits

end Cabinet
