import Cabinet.Proofs.Store.Soundness

/-! Which rows a soft deletion loses. Main statement: none, unless a document that it takes along has
a soft-deleted record already or its leaf is to go where a soft-deleted row is. -/

namespace Cabinet

open Relation

namespace Table

variable {t : Tenant} {T : Table} {row : Row} {rows : List Row} {m : String}

/-- Each row that moves onto another one is a row less. -/
theorem size_softDelete_iff (h : T.AreLive t rows) (hnodup : rows.Nodup) :
    (T.softDelete t rows).rows.size = T.rows.size ↔
      ∀ row ∈ rows, T.get? (row.address.marked t) = none := by
  have hmoves : markedMoves t rows = rows.map fun row => (row.address, row.marked t) :=
    markedMoves_eq fun row hrow => (h row hrow).2
  have horigins : (markedMoves t rows).Pairwise fun m m' => m.1 ≠ m'.1 := by
    rw [hmoves, List.pairwise_map]
    refine hnodup.imp_of_mem fun {a b} ha hb hab he => hab ?_
    exact eq_of_address_eq (h a ha).1 (h b hb).1 he
  have hpresent : ∀ m ∈ markedMoves t rows, (T.get? m.1).isSome := by
    rw [hmoves]
    intro m hm
    obtain ⟨row, hrow, rfl⟩ := List.mem_map.1 hm
    have hget := get?_address (h row hrow).1
    exact Option.isSome_of_eq_some hget
  have hsize := size_move (h.distinct hnodup) h.apart horigins hpresent
  -- the size falls by the number of moves onto a row
  have hlost : (T.softDelete t rows).rows.size = T.rows.size ↔
      (markedMoves t rows).countP (fun m => (T.get? m.2.address).isSome) = 0 := by
    unfold softDelete
    omega
  rw [hlost, List.countP_eq_zero, hmoves]
  simp [Row.address_marked]

theorem mem_softDelete_of_isMarked (h : T.AreLive t rows) (hnodup : rows.Nodup)
    (hfree : ∀ r ∈ rows, T.get? (r.address.marked t) = none) (hrow : row ∈ T)
    (hmarked : SoftDelete.isMarked t row.address.partition) : row ∈ T.softDelete t rows := by
  rw [mem_softDelete h hnodup]
  have hnot : row ∉ rows := by
    intro hmem
    have hlive := (h row hmem).2.isMarked
    rw [hmarked] at hlive
    cases hlive
  have hapart : ∀ r ∈ rows, row.address ≠ r.address.marked t := by
    intro r hr
    have hnone := hfree r hr
    rw [get?_eq_none_iff] at hnone
    exact hnone row hrow
  exact .inr ⟨hrow, hnot, hapart⟩

theorem Sound.free_iff (h : T.Sound t) (hlive : (T.document? t m).isSome) :
    (∀ row ∈ T.liveRows t m, T.get? (row.address.marked t) = none) ↔
      ¬T.IsDeletedDocument t m ∧ ∀ leaf ∈ T.leaf? t m, T.get? (leaf.address.marked t) = none := by
  constructor
  · intro hfree
    refine ⟨?_, fun leaf hleaf => hfree leaf ?_⟩
    · rintro ⟨d, hd, rfl, rfl⟩
      obtain ⟨e, he, ht, hid⟩ := (isSome_document?_iff h.keeps).1 hlive
      have haddress : e.liveRow.address = d.liveRow.address := by
        rw [Document.address_liveRow ht, hid, Document.address_liveRow rfl]
      have hrow : e.liveRow ∈ T.liveRows d.tenant d.id :=
        mem_liveRows_of_partition he (congrArg Address.partition haddress)
      have hnone := hfree e.liveRow hrow
      rw [haddress, get?_eq_none_iff] at hnone
      exact hnone _ hd rfl
    · exact List.mem_append_right _ (Option.mem_toList.2 hleaf)
  · rintro ⟨hdeleted, hleaf⟩ row hrow
    rcases List.mem_append.1 hrow with hrow | hrow
    · -- a row in the way would be in the soft-deleted partition, next to a record
      obtain ⟨-, hp⟩ := mem_partitionRows.1 hrow
      rw [get?_eq_none_iff]
      intro r hr ha
      have hpartition : r.address.partition = SoftDelete.markKey t (Partition.document t m) := by
        rw [ha, ← hp]
        rfl
      exact hdeleted (h.deletedOwned r hr m hpartition)
    · exact hleaf row (Option.mem_toList.1 hrow)

end Table

namespace Store

/-- In every store that requests of one tenant lead to, a soft deletion loses no row exactly when
no document that it takes along has a soft-deleted record already, and no leaf goes where a row is. -/
theorem softDelete_lossless_iff (c : Config) (name : String) (maxBatchSize : Nat) (clock : Clock)
    {t : Tenant} {requests : List Request} (hrequests : ∀ r ∈ requests, r.tenant = t)
    (id : String) :
    let s := (run c (fresh name maxBatchSize clock) requests).2
    let after := ((deleteDocument t id true).run s).2
    (after.table.rows.size = s.table.rows.size ∧
      ∀ row ∈ s.table, SoftDelete.isMarked t row.address.partition → row ∈ after.table) ↔
        s.table.document? t id = none ∨
          ∀ m, ReflTransGen (s.table.IsChild t) id m → ¬s.table.IsDeletedDocument t m ∧
            ∀ leaf ∈ s.table.leaf? t m, s.table.get? (leaf.address.marked t) = none := by
  intro s after
  have hsound : s.table.Sound t := sound_run hrequests (sound_fresh t name maxBatchSize clock)
  have hkeeps := hsound.keeps
  have hrun := run_deleteDocument t id true s
  by_cases hnone : s.table.document? t id = none
  · have hafter : after = s := by
      show ((deleteDocument t id true).run s).2 = s
      rw [hrun, hnone]
      rfl
    rw [hafter]
    exact iff_of_true ⟨rfl, fun row hrow _ => hrow⟩ (.inl hnone)
  have hlive : (s.table.document? t id).isSome := Option.isSome_iff_ne_none.2 hnone
  have hnodup : (s.table.family t id).Nodup := Table.nodup_family t s.table id
  have hrows := Table.areLive_liveRows hkeeps (s.table.family t id)
  have hrowsNodup := Table.nodup_flatMap_liveRows hkeeps hnodup
  have hafter : after.table =
      s.table.softDelete t ((s.table.family t id).flatMap (s.table.liveRows t)) := by
    rw [← Table.remove_soft_eq hkeeps hnodup]
    show ((deleteDocument t id true).run s).2.table = _
    rw [hrun, if_neg (by simpa using hnone)]
  have hfree : (∀ row ∈ (s.table.family t id).flatMap (s.table.liveRows t),
      s.table.get? (row.address.marked t) = none) ↔
        ∀ m, ReflTransGen (s.table.IsChild t) id m → ¬s.table.IsDeletedDocument t m ∧
          ∀ leaf ∈ s.table.leaf? t m, s.table.get? (leaf.address.marked t) = none := by
    rw [List.forall_mem_flatMap]
    apply forall_congr'
    intro m
    rw [Table.mem_family hkeeps]
    refine imp_congr_right fun hm => hsound.free_iff ?_
    exact Table.isSome_document?_of_mem_family hkeeps hlive ((Table.mem_family hkeeps).2 hm)
  rw [hafter, or_iff_right hnone, ← hfree, Table.size_softDelete_iff hrows hrowsNodup]
  constructor
  · exact And.left
  · intro h
    exact ⟨h, fun row hrow => Table.mem_softDelete_of_isMarked hrows hrowsNodup h hrow⟩

def firstSaved : Document where
  id := "d"
  userId := "u"
  inserted := ⟨1704067200, 0⟩
  modified := ⟨1704067200, 0⟩

def savedAgain : List Request :=
  let request (op : Operation) : Request := ⟨.default, ⟨0⟩, op⟩
  [request (.saveDocument firstSaved), request (.deleteDocument "d" true),
    request (.saveDocument { firstSaved with userId := "v" })]

theorem softDelete_savedAgain : (∀ r ∈ savedAgain, r.tenant = .default) ∧
    let s := (run {} (fresh "documents" 100 ⟨0⟩) savedAgain).2
    let after := ((deleteDocument .default "d" true).run s).2
    s.table.IsDeletedDocument .default "d" ∧ ¬(after.table.rows.size = s.table.rows.size ∧
      ∀ row ∈ s.table, SoftDelete.isMarked .default row.address.partition → row ∈ after.table) := by
  have hrequests : ∀ r ∈ savedAgain, r.tenant = .default := by decide
  refine ⟨hrequests, ⟨firstSaved, by decide +kernel, rfl, rfl⟩, ?_⟩
  intro hlossless
  rcases (softDelete_lossless_iff {} "documents" 100 ⟨0⟩ hrequests "d").1 hlossless with
    hnone | hfree
  · revert hnone
    decide +kernel
  · exact (hfree "d" .refl).1 ⟨firstSaved, by decide +kernel, rfl, rfl⟩

/-- The record that was soft-deleted first is gone, and there is a row less. -/
theorem softDelete_loses_first_record :
    let s := (run {} (fresh "documents" 100 ⟨0⟩) savedAgain).2
    let after := ((deleteDocument .default "d" true).run s).2
    firstSaved.liveRow.marked .default ∈ s.table ∧
      firstSaved.liveRow.marked .default ∉ after.table ∧
        s.table.rows.size = 2 ∧ after.table.rows.size = 1 := by
  intro s after
  decide +kernel

end Store

end Cabinet
