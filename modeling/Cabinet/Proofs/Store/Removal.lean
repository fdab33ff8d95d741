import Cabinet.Proofs.Store.Writing
import Cabinet.Proofs.Table.Moves

/-! Deleting documents with what is below them, and bringing them back. Main statements: all rows of
a family go in one move, a restore moves back what was moved, and both are told apart row by row. -/

namespace Cabinet

open Relation

namespace Table

variable {t : Tenant} {T T' : Table} {row : Row} {rows lives : List Row} {id m : String}
  {ids : List String}

theorem Keeps.mem_congr (h : T.Keeps t) (h' : T'.Keeps t) {i : Index} {a : Address}
    (ha : row.key.entry i = some a) (hp : Partition.IsOwn t a.partition)
    (hrow : row.IsFiled t → (row ∈ T ↔ row ∈ T')) : row ∈ T ↔ row ∈ T' :=
  ⟨fun hm => (hrow (h.isFiled hm ha hp)).1 hm, fun hm => (hrow (h'.isFiled hm ha hp)).2 hm⟩

theorem leafLookup_congr (h : T.Keeps t) (h' : T'.Keeps t)
    (hrows : ∀ row, row.IsLive t → row.documentId? = some id → (row ∈ T ↔ row ∈ T')) :
    T.leaf? t id = T'.leaf? t id := by
  unfold leaf? leafLookup
  rw [queryAll_congr fun row hposition => ?_]
  obtain ⟨⟨partition, sort⟩, hentry, hp, -⟩ := isSome_position?.1 hposition
  obtain rfl : partition = Partition.leaf t id := hp
  apply h.mem_congr h' hentry (.inl Partition.isLive_leaf)
  intro hfiled
  have hlive : row.IsLive t := hfiled.isLive_of_entry hentry Partition.isLive_leaf
  obtain ⟨parents, name, -, rfl⟩ := hlive.eq_leaf hentry
  exact hrows _ hlive rfl

theorem liveRows_congr (h : T.Keeps t) (h' : T'.Keeps t)
    (hrows : ∀ row, row.IsLive t → row.documentId? = some id → (row ∈ T ↔ row ∈ T')) :
    T.liveRows t id = T'.liveRows t id := by
  have hpartition : T.partitionRows (Partition.document t id) =
      T'.partitionRows (Partition.document t id) := by
    apply queryAll_congr
    intro row hposition
    obtain ⟨a, hentry, hp, -⟩ := isSome_position?.1 hposition
    have hown : Partition.IsLive t a.partition := hp ▸ Partition.isLive_document
    apply h.mem_congr h' hentry (.inl hown)
    intro hfiled
    have hlive : row.IsLive t := hfiled.isLive_of_entry hentry hown
    obtain rfl : row.address = a := Option.some.inj hentry
    exact hrows row hlive (hlive.documentId?_of_partition hp).1
  unfold liveRows
  rw [hpartition, leafLookup_congr h h' hrows]

theorem nodup_liveRows (h : T.Keeps t) (id : String) : (T.liveRows t id).Nodup := by
  refine List.nodup_append.2 ⟨queryAll_nodup rfl, ?_, fun row hrow leaf hleaf => ?_⟩
  · cases T.leaf? t id <;> simp
  · rintro rfl
    rw [Option.mem_toList] at hleaf
    obtain ⟨-, -, parents, name, -, rfl⟩ := leaf?_eq_some h hleaf
    exact Partition.document_ne_folderKey (mem_partitionRows.1 hrow).2.symm

theorem nodup_flatMap_liveRows (h : T.Keeps t) (hids : ids.Nodup) :
    (ids.flatMap (T.liveRows t)).Nodup := by
  refine List.nodup_flatMap.2 ⟨fun id _ => nodup_liveRows h id, hids.imp fun {a b} hab => ?_⟩
  intro row ha hb
  have hid := (mem_liveRows h ha).2.2
  rw [(mem_liveRows h hb).2.2] at hid
  exact hab (Option.some.inj hid).symm

theorem markedMoves_eq (h : ∀ row ∈ rows, row.IsLive t) :
    markedMoves t rows = rows.map fun row => (row.address, row.marked t) := by
  unfold markedMoves
  rw [List.filter_eq_self.2 fun row hrow => by simp [(h row hrow).isMarked]]
  rfl

theorem softDelete_eq (h : ∀ row ∈ rows, row.IsLive t) :
    T.softDelete t rows = T.move (rows.map fun row => (row.address, row.marked t)) :=
  congrArg T.move (markedMoves_eq h)

def AreLive (t : Tenant) (T : Table) (rows : List Row) : Prop :=
  ∀ row ∈ rows, row ∈ T ∧ row.IsLive t

theorem AreLive.distinct (h : T.AreLive t rows) (hnodup : rows.Nodup) :
    (markedMoves t rows).Pairwise fun m m' => m.2.address ≠ m'.2.address := by
  rw [markedMoves_eq fun row hrow => (h row hrow).2, List.pairwise_map]
  refine hnodup.imp_of_mem fun {a b} ha hb hab he => hab ?_
  have hmarked := Address.marked_injective (h a ha).2.partition (h b hb).2.partition he
  exact eq_of_address_eq (h a ha).1 (h b hb).1 hmarked

theorem AreLive.apart (h : T.AreLive t rows) :
    ∀ m ∈ markedMoves t rows, ∀ m' ∈ markedMoves t rows, m.2.address ≠ m'.1 := by
  rw [markedMoves_eq fun row hrow => (h row hrow).2]
  intro m hm m' hm' he
  obtain ⟨a, ha, rfl⟩ := List.mem_map.1 hm
  obtain ⟨b, hb, rfl⟩ := List.mem_map.1 hm'
  have hne := (h b hb).2.address_ne_marked (h a ha).2
  exact hne he.symm

theorem mem_softDelete (h : T.AreLive t rows) (hnodup : rows.Nodup) :
    row ∈ T.softDelete t rows ↔ (∃ r ∈ rows, row = r.marked t) ∨
      row ∈ T ∧ row ∉ rows ∧ ∀ r ∈ rows, row.address ≠ r.address.marked t := by
  unfold softDelete
  rw [mem_move (h.distinct hnodup) h.apart, markedMoves_eq fun row hrow => (h row hrow).2]
  simp only [List.mem_map, exists_exists_and_eq_and, forall_exists_index, and_imp,
    forall_apply_eq_imp_iff₂, forall_and]
  refine or_congr Iff.rfl (and_congr_right fun hrow => and_congr ?_ Iff.rfl)
  constructor
  · intro hne hmem
    exact hne row hmem rfl
  · intro hnot r hr ha
    rw [eq_of_address_eq hrow (h r hr).1 ha] at hnot
    exact hnot hr

theorem mem_softDelete_of_isLive (h : T.AreLive t rows) (hnodup : rows.Nodup)
    (hlive : row.IsLive t) : row ∈ T.softDelete t rows ↔ row ∈ T ∧ row ∉ rows := by
  rw [mem_softDelete h hnodup]
  constructor
  · rintro (⟨r, hr, he⟩ | ⟨hrow, hnot, -⟩)
    · exact absurd he (hlive.ne_marked (h r hr).2)
    · exact ⟨hrow, hnot⟩
  · rintro ⟨hrow, hnot⟩
    exact .inr ⟨hrow, hnot, fun r hr => hlive.address_ne_marked (h r hr).2⟩

theorem edits_softDelete (h : ∀ row ∈ rows, row.IsLive t) :
    T.Edits (Row.IsFiled t) (T.softDelete t rows) := by
  rw [softDelete_eq h]
  refine Edits.move (fun m hm => ?_) T
  obtain ⟨row, hrow, rfl⟩ := List.mem_map.1 hm
  exact ⟨.inr (.mark (h row hrow)), row, .inl (h row hrow), rfl⟩

theorem softDelete_append (h : ∀ row ∈ rows, row.IsLive t) (h' : ∀ row ∈ lives, row.IsLive t) :
    T.softDelete t (rows ++ lives) = (T.softDelete t rows).softDelete t lives := by
  have happend : ∀ row ∈ rows ++ lives, row.IsLive t := by
    intro row hrow
    exact (List.mem_append.1 hrow).elim (h row) (h' row)
  rw [softDelete_eq happend, softDelete_eq h', softDelete_eq h, List.map_append]
  exact List.foldl_append

theorem areLive_liveRows (h : T.Keeps t) (ids : List String) :
    T.AreLive t (ids.flatMap (T.liveRows t)) := by
  intro row hrow
  obtain ⟨id, -, hrow⟩ := List.mem_flatMap.1 hrow
  obtain ⟨hmem, hlive, -⟩ := mem_liveRows h hrow
  exact ⟨hmem, hlive⟩

theorem liveRows_softDelete (h : T.Keeps t) (hm : m ≠ id) :
    (T.softDelete t (T.liveRows t id)).liveRows t m = T.liveRows t m := by
  have hrows : T.AreLive t (T.liveRows t id) := fun row hrow =>
    ⟨(mem_liveRows h hrow).1, (mem_liveRows h hrow).2.1⟩
  have hedits : T.Edits (Row.IsFiled t) _ := edits_softDelete fun row hrow => (hrows row hrow).2
  refine liveRows_congr (h.of_edits (fun _ hrow => hrow) hedits) h fun row hlive hid => ?_
  rw [mem_softDelete_of_isLive hrows (nodup_liveRows h id) hlive]
  have hnot : row ∉ T.liveRows t id := by
    intro hrow
    have hrowId := (mem_liveRows h hrow).2.2
    rw [hid] at hrowId
    exact hm (Option.some.inj hrowId)
  exact ⟨And.left, fun hrow => ⟨hrow, hnot⟩⟩

theorem liveRows_eraseAll (h : T.Keeps t) (hm : m ≠ id) :
    (T.eraseAll (T.liveRows t id)).liveRows t m = T.liveRows t m := by
  have hedits : T.Edits (Row.IsFiled t) (T.eraseAll (T.liveRows t id)) :=
    Edits.eraseAll (fun row hrow => .inl (mem_liveRows h hrow).2.1) T
  refine liveRows_congr (h.of_edits (fun _ hrow => hrow) hedits) h fun row _ hid => ?_
  rw [mem_eraseAll_of_subset fun row hrow => (mem_liveRows h hrow).1]
  refine ⟨And.left, fun hrow => ⟨hrow, fun hrow' => ?_⟩⟩
  have hrowId := (mem_liveRows h hrow').2.2
  rw [hid] at hrowId
  exact hm (Option.some.inj hrowId)

/-- Deleting documents one after another is one move of all their rows. -/
theorem remove_soft_eq (h : T.Keeps t) (hids : ids.Nodup) :
    T.remove t true ids = T.softDelete t (ids.flatMap (T.liveRows t)) := by
  induction ids generalizing T with
  | nil => rfl
  | cons id ids ih =>
    obtain ⟨hid, hids⟩ := List.nodup_cons.1 hids
    have hlive : ∀ row ∈ T.liveRows t id, row.IsLive t := fun row hrow => (mem_liveRows h hrow).2.1
    have hkeeps := h.of_edits (fun _ hrow => hrow) (edits_softDelete hlive)
    -- the rows of the other documents are the same when those of the first have gone
    have hrest : ids.flatMap ((T.softDelete t (T.liveRows t id)).liveRows t) =
        ids.flatMap (T.liveRows t) :=
      List.flatMap_congr fun m hm => liveRows_softDelete h fun e => hid (e ▸ hm)
    have hcons : T.remove t true (id :: ids) =
        (T.softDelete t (T.liveRows t id)).remove t true ids := rfl
    rw [hcons, ih hkeeps hids, hrest, List.flatMap_cons, softDelete_append hlive]
    exact fun row hrow => (areLive_liveRows h ids row hrow).2

theorem remove_hard_eq (h : T.Keeps t) (hids : ids.Nodup) :
    T.remove t false ids = T.eraseAll (ids.flatMap (T.liveRows t)) := by
  induction ids generalizing T with
  | nil => rfl
  | cons id ids ih =>
    obtain ⟨hid, hids⟩ := List.nodup_cons.1 hids
    have hedits : T.Edits (Row.IsFiled t) (T.eraseAll (T.liveRows t id)) :=
      Edits.eraseAll (fun row hrow => .inl (mem_liveRows h hrow).2.1) T
    have hkeeps := h.of_edits (fun _ hrow => hrow) hedits
    have hrest : ids.flatMap ((T.eraseAll (T.liveRows t id)).liveRows t) =
        ids.flatMap (T.liveRows t) :=
      List.flatMap_congr fun m hm => liveRows_eraseAll h fun e => hid (e ▸ hm)
    have hcons : T.remove t false (id :: ids) =
        (T.eraseAll (T.liveRows t id)).remove t false ids := rfl
    rw [hcons, ih hkeeps hids, hrest, List.flatMap_cons]
    exact List.foldl_append.symm

theorem edits_remove (h : T.Keeps t) (soft : Bool) (hids : ids.Nodup) :
    T.Edits (Row.IsFiled t) (T.remove t soft ids) := by
  have hlive := areLive_liveRows h ids
  cases soft with
  | true =>
    rw [remove_soft_eq h hids]
    exact edits_softDelete fun row hrow => (hlive row hrow).2
  | false =>
    rw [remove_hard_eq h hids]
    exact Edits.eraseAll (fun row hrow => .inl (hlive row hrow).2) T

def backMoves (t : Tenant) (lives : List Row) : List (Address × Row) :=
  lives.map fun live => ((live.marked t).address, live)

def broughtBack (t : Tenant) (T : Table) (lives : List Row) (documents : List Document) : Table :=
  (T.move (backMoves t lives)).indexPaths t documents

theorem unmarkedMoves_marked (h : ∀ live ∈ lives, live.IsLive t) :
    unmarkedMoves t (lives.map (Row.marked t)) = .ok (backMoves t lives) := by
  induction lives with
  | nil => rfl
  | cons live lives ih =>
    have hfirst := (h live List.mem_cons_self).unmark_mark
    have hrest := ih fun l hl => h l (List.mem_cons_of_mem live hl)
    rw [List.map_cons, unmarkedMoves]
    show (do
      let key ← SoftDelete.unmark t (SoftDelete.mark t live.key)
      return ((live.marked t).address, (⟨key, live.record⟩ : Row)) ::
        (← unmarkedMoves t (lives.map (Row.marked t)))) = _
    rw [hfirst, hrest]
    rfl

theorem exists_map_marked {P : Row → Prop}
    (h : ∀ row ∈ rows, ∃ live : Row, live.IsLive t ∧ P live ∧ row = live.marked t) :
    ∃ lives : List Row, (∀ live ∈ lives, live.IsLive t ∧ P live) ∧
      rows = lives.map (Row.marked t) := by
  induction rows with
  | nil => exact ⟨[], by simp, rfl⟩
  | cons row rows ih =>
    obtain ⟨live, hlive, hP, rfl⟩ := h row List.mem_cons_self
    obtain ⟨lives, hlives, rfl⟩ := ih fun r hr => h r (List.mem_cons_of_mem _ hr)
    refine ⟨live :: lives, fun l hl => ?_, rfl⟩
    rcases List.mem_cons.1 hl with rfl | hl
    · exact ⟨hlive, hP⟩
    · exact hlives l hl

theorem mem_restorable (h : T.Keeps t) (hrow : row ∈ T.restorable t id) :
    row ∈ T ∧ ∃ live : Row, live.IsLive t ∧
      (∃ m ∈ T.deletedFamily t id, live.documentId? = some m) ∧ row = live.marked t := by
  obtain ⟨m, hm, hrow⟩ := List.mem_flatMap.1 hrow
  obtain ⟨hmem, live, hlive, hid, rfl⟩ := mem_deletedRows h hrow
  exact ⟨hmem, live, hlive, ⟨m, hm, hid⟩, rfl⟩

theorem not_mem_restorable (h : T.Keeps t) (hlive : row.IsLive t) : row ∉ T.restorable t id := by
  intro hrow
  obtain ⟨-, live, hlive', -, he⟩ := mem_restorable h hrow
  exact hlive.ne_marked hlive' he

theorem nodup_deletedRows (h : T.Keeps t) (id : String) : (T.deletedRows t id).Nodup := by
  unfold deletedRows
  simp only
  split
  · exact List.nodup_nil
  · refine List.nodup_append.2 ⟨queryAll_nodup rfl, ?_, fun row hrow leaf hleaf => ?_⟩
    · cases T.deletedLeaf? t id <;> simp
    · rintro rfl
      rw [Option.mem_toList] at hleaf
      obtain ⟨-, parents, name, hnames, rfl⟩ := deletedLeaf?_eq_some h hleaf
      have hp := (mem_deletedPartitionRows.1 hrow).2
      have hpartition := (Row.IsLive.leaf id parents name hnames).partition.markKey_injective
        Partition.isLive_document hp
      exact Partition.document_ne_folderKey hpartition.symm

theorem nodup_restorable (h : T.Keeps t) (id : String) : (T.restorable t id).Nodup := by
  unfold restorable
  refine List.nodup_flatMap.2 ⟨fun m _ => nodup_deletedRows h m, ?_⟩
  refine (nodup_deletedFamily t T id).imp fun {a b} hab => ?_
  intro row ha hb
  obtain ⟨-, live, -, hid, rfl⟩ := mem_deletedRows h ha
  obtain ⟨-, live', -, hid', he⟩ := mem_deletedRows h hb
  rw [← Row.documentId?_marked t, he, Row.documentId?_marked, hid'] at hid
  exact hab (Option.some.inj hid).symm

/-- The rows that come back with the family of a document, as they stood before. -/
structure Restores (t : Tenant) (T : Table) (id : String) (lives : List Row) : Prop where
  isLive : ∀ live ∈ lives, live.IsLive t
  family : ∀ live ∈ lives, ∃ m ∈ T.deletedFamily t id, live.documentId? = some m
  marked : T.restorable t id = lives.map (Row.marked t)

theorem exists_restores (h : T.Keeps t) (id : String) : ∃ lives, T.Restores t id lives ∧
    unmarkedMoves t (T.restorable t id) = .ok (backMoves t lives) := by
  obtain ⟨lives, hlives, hmarked⟩ := exists_map_marked fun row hrow => (mem_restorable h hrow).2
  have hlive : ∀ live ∈ lives, live.IsLive t := fun live hl => (hlives live hl).1
  refine ⟨lives, ⟨hlive, fun live hl => (hlives live hl).2, hmarked⟩, ?_⟩
  rw [hmarked]
  exact unmarkedMoves_marked hlive

namespace Restores

theorem mem (hr : T.Restores t id lives) (h : T.Keeps t) {live : Row} (hl : live ∈ lives) :
    live.marked t ∈ T := by
  have hrestorable : live.marked t ∈ T.restorable t id := hr.marked ▸ List.mem_map_of_mem hl
  exact (mem_restorable h hrestorable).1

theorem distinct (hr : T.Restores t id lives) (h : T.Keeps t) :
    (backMoves t lives).Pairwise fun m m' => m.2.address ≠ m'.2.address := by
  have hnodup : (lives.map (Row.marked t)).Nodup := hr.marked ▸ nodup_restorable h id
  unfold backMoves
  rw [List.pairwise_map]
  -- rows for one place would have been one row under the mark as well
  refine (List.pairwise_map.1 hnodup).imp_of_mem fun {a b} ha hb hab he => hab ?_
  have hmarked : (a.marked t).address = (b.marked t).address := by
    rw [Row.address_marked, Row.address_marked, he]
  exact eq_of_address_eq (hr.mem h ha) (hr.mem h hb) hmarked

theorem apart (hr : T.Restores t id lives) :
    ∀ m ∈ backMoves t lives, ∀ m' ∈ backMoves t lives, m.2.address ≠ m'.1 := by
  intro m hm m' hm' he
  obtain ⟨a, ha, rfl⟩ := List.mem_map.1 hm
  obtain ⟨b, hb, rfl⟩ := List.mem_map.1 hm'
  have hne := (hr.isLive a ha).address_ne_marked (hr.isLive b hb)
  exact hne he

theorem mem_iff (hr : T.Restores t id lives) (h : T.Keeps t) :
    row ∈ T.move (backMoves t lives) ↔ row ∈ lives ∨
      row ∈ T ∧ row ∉ T.restorable t id ∧ ∀ live ∈ lives, row.address ≠ live.address := by
  rw [mem_move (hr.distinct h) hr.apart, hr.marked]
  unfold backMoves
  simp only [List.mem_map, exists_exists_and_eq_and, forall_exists_index, and_imp,
    forall_apply_eq_imp_iff₂, forall_and, exists_eq_right', not_exists, not_and]
  refine or_congr Iff.rfl (and_congr_right fun hrow => and_congr ?_ Iff.rfl)
  constructor
  · intro hne live hl he
    exact hne live hl (congrArg Row.address he).symm
  · intro hne live hl ha
    exact hne live hl (eq_of_address_eq (hr.mem h hl) hrow ha.symm)

theorem edits (hr : T.Restores t id lives) : T.Edits (Row.IsFiled t) (T.move (backMoves t lives)) := by
  refine Edits.move (fun m hm => ?_) T
  obtain ⟨live, hl, rfl⟩ := List.mem_map.1 hm
  have hlive := hr.isLive live hl
  exact ⟨.inl hlive, live.marked t, .inr (.mark hlive), rfl⟩

theorem mem_lives (hr : T.Restores t id lives) (hlive : row.IsLive t) :
    row ∈ lives ↔ row.marked t ∈ T.restorable t id := by
  rw [hr.marked, List.mem_map]
  constructor
  · intro hrow
    exact ⟨row, hrow, rfl⟩
  · rintro ⟨live, hl, he⟩
    have hrow : live = row := (hr.isLive live hl).marked_injective hlive he
    exact hrow ▸ hl

end Restores

theorem mem_restorable_of_partition (h : T.Keeps t) (hrow : row ∈ T)
    (hp : row.address.partition = SoftDelete.markKey t (Partition.document t m)) :
    row ∈ T.restorable t id ↔ m ∈ T.deletedFamily t id := by
  have hpartition : row ∈ T.deletedPartitionRows t m := mem_deletedPartitionRows.2 ⟨hrow, hp⟩
  constructor
  · intro hrestorable
    obtain ⟨-, live, hlive, ⟨m', hm', hid⟩, rfl⟩ := mem_restorable h hrestorable
    have hp := hlive.partition.markKey_injective Partition.isLive_document hp
    have hm : live.documentId? = some m := (hlive.documentId?_of_partition hp).1
    obtain rfl : m' = m := Option.some.inj (hid.symm.trans hm)
    exact hm'
  · intro hm
    have hrows : row ∈ T.deletedRows t m :=
      mem_deletedRows_iff.2 ⟨List.ne_nil_of_mem hpartition, .inl hpartition⟩
    exact List.mem_flatMap.2 ⟨m, hm, hrows⟩

theorem deletedPartitionRows_ne_nil (h : T.Keeps t) (hne : T.restorable t id ≠ []) :
    T.deletedPartitionRows t id ≠ [] := by
  intro hnil
  have hfamily : ∀ m, m ∈ T.deletedFamily t id → m = id := by
    intro m hm
    rw [mem_deletedFamily h] at hm
    rcases hm.cases_head with rfl | ⟨b, hb, -⟩
    · rfl
    · exact absurd hnil ((mem_deletedChildren h id b).1 hb).1
  refine hne (List.flatMap_eq_nil_iff.2 fun m hm => ?_)
  rw [hfamily m hm]
  exact List.eq_nil_iff_forall_not_mem.2 fun row hrow => (mem_deletedRows_iff.1 hrow).1 hnil

/-- The family of a soft-deleted document is what is reached from it through its soft-deleted
children. -/
theorem mem_deletedFamily_iff (h : T.Keeps t) (hne : T.restorable t id ≠ []) :
    m ∈ T.deletedFamily t id ↔ ReflTransGen (T.IsDeletedChild t) id m := by
  have hroot := deletedPartitionRows_ne_nil h hne
  rw [mem_deletedFamily h]
  constructor
  · intro hm
    have hstep : ∀ a b, b ∈ T.deletedChildren t a → T.IsDeletedChild t a b :=
      fun a b hb => ((mem_deletedChildren h a b).1 hb).2
    exact ReflTransGen.mono hstep _ _ hm
  · intro hm
    -- each document that is reached has its record in its soft-deleted partition
    have hreached : ReflTransGen (fun a b => b ∈ T.deletedChildren t a) id m ∧
        T.deletedPartitionRows t m ≠ [] := by
      induction hm with
      | refl => exact ⟨.refl, hroot⟩
      | tail _ hchild ih =>
        obtain ⟨hpath, hrows⟩ := ih
        have hnext := (mem_deletedChildren h _ _).2 ⟨hrows, hchild⟩
        obtain ⟨d, hd, rfl, -, rfl⟩ := hchild
        exact ⟨hpath.tail hnext, List.ne_nil_of_mem (mem_deletedPartitionRows.2 ⟨hd, rfl⟩)⟩
    exact hreached.1

end Table

end Cabinet
