import Cabinet.Proofs.Table.Contents
import Cabinet.Store.Lifecycle

/-! Moving rows to other addresses. Main statements: which rows are there after the moves, and that
each move to an occupied address loses one row. -/

namespace Cabinet

namespace Rows

theorem countP_address (rows : Rows) (a : Address) :
    rows.toList.countP (·.address = a) = if (rows.get? a).isSome then 1 else 0 := by
  obtain ⟨rs, h⟩ := rows
  simp only [get?]
  induction rs with
  | nil => rfl
  | cons r rs ih =>
    obtain ⟨hr, hrs⟩ := List.pairwise_cons.1 h
    by_cases hra : r.address = a
    · have hnone : rs.countP (·.address = a) = 0 := by
        refine List.countP_eq_zero.2 fun x hx hxa => Address.ne_of_lt (hr x hx) ?_
        exact hra.trans (of_decide_eq_true hxa).symm
      simp [hra, hnone]
    · simpa [hra] using ih hrs

theorem size_erase (rows : Rows) (a : Address) :
    (rows.erase a).size + (if (rows.get? a).isSome then 1 else 0) = rows.size := by
  have hcount := List.length_eq_countP_add_countP (fun row : Row => decide (row.address = a))
    (l := rows.toList)
  have hrest : rows.toList.countP (fun row => ¬decide (row.address = a) = true) =
      (rows.erase a).size := by
    rw [List.countP_eq_length_filter, size, erase]
    congr 2
    funext row
    simp
  rw [hrest, countP_address] at hcount
  have hsize : rows.size = rows.toList.length := rfl
  omega

theorem size_insert (rows : Rows) (row : Row) :
    (rows.insert row).size = (rows.erase row.address).size + 1 := by
  have hperm : (rows.insert row).toList.Perm (row :: (rows.erase row.address).toList) := by
    have hnodup : (row :: (rows.erase row.address).toList).Nodup := by
      refine List.nodup_cons.2 ⟨fun h => ?_, (rows.erase row.address).nodup⟩
      simp [erase] at h
    apply (List.perm_ext_iff_of_nodup (rows.insert row).nodup hnodup).2
    intro r
    let T : Table := { name := "", maxBatchSize := 0, rows }
    have hput : r ∈ T.put row ↔ r = row ∨ r ∈ T ∧ r.address ≠ row.address := Table.mem_put
    have herase : r ∈ T.erase row.address ↔ r ∈ T ∧ r.address ≠ row.address := Table.mem_erase
    rw [List.mem_cons]
    exact hput.trans (or_congr_right herase.symm)
  exact hperm.length_eq

end Rows

namespace Table

variable {T : Table} {moves : List (Address × Row)} {r : Row}

theorem mem_move (distinct : moves.Pairwise fun m m' => m.2.address ≠ m'.2.address)
    (apart : ∀ m ∈ moves, ∀ m' ∈ moves, m.2.address ≠ m'.1) :
    r ∈ T.move moves ↔ (∃ m ∈ moves, r = m.2) ∨
      r ∈ T ∧ ∀ m ∈ moves, r.address ≠ m.1 ∧ r.address ≠ m.2.address := by
  induction moves generalizing T with
  | nil => simp [move]
  | cons m moves ih =>
    obtain ⟨hm, hmoves⟩ := List.pairwise_cons.1 distinct
    have hstep := ih (T := (T.put m.2).erase m.1) hmoves fun a ha b hb =>
      apart a (List.mem_cons_of_mem m ha) b (List.mem_cons_of_mem m hb)
    have hself := apart m List.mem_cons_self m List.mem_cons_self
    have hcons : T.move (m :: moves) = ((T.put m.2).erase m.1).move moves := rfl
    rw [hcons, hstep, mem_erase, mem_put]
    constructor
    · rintro (⟨a, ha, rfl⟩ | ⟨⟨rfl | ⟨hr, hput⟩, herase⟩, hrest⟩)
      · exact .inl ⟨a, List.mem_cons_of_mem m ha, rfl⟩
      · exact .inl ⟨m, List.mem_cons_self, rfl⟩
      · refine .inr ⟨hr, fun a ha => ?_⟩
        rcases List.mem_cons.1 ha with rfl | ha
        · exact ⟨herase, hput⟩
        · exact hrest a ha
    · rintro (⟨a, ha, rfl⟩ | ⟨hr, hrest⟩)
      · rcases List.mem_cons.1 ha with rfl | ha
        · refine .inr ⟨⟨.inl rfl, hself⟩, fun b hb => ⟨?_, hm b hb⟩⟩
          exact apart a List.mem_cons_self b (List.mem_cons_of_mem a hb)
        · exact .inl ⟨a, ha, rfl⟩
      · obtain ⟨herase, hput⟩ := hrest m List.mem_cons_self
        exact .inr ⟨⟨.inr ⟨hr, hput⟩, herase⟩, fun a ha => hrest a (List.mem_cons_of_mem m ha)⟩

theorem move_eq (T : Table) (moves : List (Address × Row)) :
    T.move moves = { T with rows := (T.move moves).rows } := by
  induction moves generalizing T with
  | nil => rfl
  | cons m moves ih => exact ih ((T.put m.2).erase m.1)

/-- At an address that no row leaves there is the row moved there last. -/
theorem get?_move {a : Address} (h : ∀ m ∈ moves, m.1 ≠ a) :
    (T.move moves).get? a = (lastAt (moves.map Prod.snd) a).or (T.get? a) := by
  induction moves generalizing T with
  | nil => rfl
  | cons m moves ih =>
    have hm := h m List.mem_cons_self
    have hrest := ih (T := (T.put m.2).erase m.1) fun m' hm' => h m' (List.mem_cons_of_mem m hm')
    have hfirst : ((T.put m.2).erase m.1).get? a =
        if m.2.address = a then some m.2 else T.get? a := by
      rw [get?, erase, Rows.get?_erase, if_neg hm.symm, put, Rows.get?_insert, get?]
    have hcons : T.move (m :: moves) = ((T.put m.2).erase m.1).move moves := rfl
    rw [hcons, hrest, hfirst, List.map_cons, lastAt_cons, Option.or_assoc]
    by_cases ha : m.2.address = a <;> simp [ha]

/-- A row is lost with each move to an address where there is one already. -/
theorem size_move (distinct : moves.Pairwise fun m m' => m.2.address ≠ m'.2.address)
    (apart : ∀ m ∈ moves, ∀ m' ∈ moves, m.2.address ≠ m'.1)
    (origins : moves.Pairwise fun m m' => m.1 ≠ m'.1)
    (present : ∀ m ∈ moves, (T.get? m.1).isSome) :
    (T.move moves).rows.size + moves.countP (fun m => (T.get? m.2.address).isSome) =
      T.rows.size := by
  induction moves generalizing T with
  | nil => simp [move]
  | cons m moves ih =>
    obtain ⟨hm, hmoves⟩ := List.pairwise_cons.1 distinct
    obtain ⟨ho, horigins⟩ := List.pairwise_cons.1 origins
    have hself := apart m List.mem_cons_self m List.mem_cons_self
    -- the first move changes nothing at the addresses of the later ones
    have hget {a : Address} (h : a ≠ m.2.address) (h' : a ≠ m.1) :
        ((T.put m.2).erase m.1).get? a = T.get? a := by
      rw [get?, erase, Rows.get?_erase, if_neg h', put, Rows.get?_insert, if_neg h.symm, get?]
    have hstep := ih (T := (T.put m.2).erase m.1) hmoves
      (fun a ha b hb => apart a (List.mem_cons_of_mem m ha) b (List.mem_cons_of_mem m hb))
      horigins fun a ha => by
        rw [hget (apart m List.mem_cons_self a (List.mem_cons_of_mem m ha)).symm (ho a ha).symm]
        exact present a (List.mem_cons_of_mem m ha)
    have hcount : moves.countP (fun a => (((T.put m.2).erase m.1).get? a.2.address).isSome) =
        moves.countP (fun a => (T.get? a.2.address).isSome) := by
      apply List.countP_congr
      intro a ha
      rw [hget (hm a ha).symm (apart a (List.mem_cons_of_mem m ha) m List.mem_cons_self)]
    have hput := (T.rows.size_insert m.2).symm
    have htarget := T.rows.size_erase m.2.address
    have herase := (T.put m.2).rows.size_erase m.1
    have horigin : ((T.put m.2).rows.get? m.1).isSome := by
      rw [put, Rows.get?_insert, if_neg hself]
      exact present m List.mem_cons_self
    rw [if_pos horigin] at herase
    rw [hcount] at hstep
    have hcons : T.move (m :: moves) = ((T.put m.2).erase m.1).move moves := rfl
    have hsize : ((T.put m.2).erase m.1).rows.size = ((T.put m.2).rows.erase m.1).size := rfl
    have hrows : (T.put m.2).rows.size = (T.rows.insert m.2).size := rfl
    rw [hcons, List.countP_cons, get?]
    omega

end Table

end Cabinet
