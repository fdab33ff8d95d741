import Cabinet.Proofs.Store.Shelved

/-! Soft deletion and restore, one after the other. Main statement: a document goes with the rows of
all documents below it and nothing else, and the restore leaves the store as it was. -/

namespace Cabinet

open Relation

namespace Table

/-- A row that belongs to a document or to a live one below it. -/
def IsUnder (t : Tenant) (T : Table) (id : String) (row : Row) : Prop :=
  ∃ m, ReflTransGen (T.IsChild t) id m ∧ row.documentId? = some m

def softRemoved (t : Tenant) (T : Table) (id : String) : Table := T.remove t true (T.family t id)

variable {t : Tenant} {T : Table} {row : Row} {lives : List Row} {id m a b : String} {d : Document}

namespace Shelved

theorem mem_family_rows (h : T.Shelved t) :
    row ∈ (T.family t id).flatMap (T.liveRows t) ↔ row ∈ T ∧ T.IsUnder t id row := by
  rw [h.mem_flatMap_liveRows_iff]
  refine and_congr_right fun _ => exists_congr fun m => and_congr_left fun _ => ?_
  exact mem_family h.keeps

theorem mem_softRemoved (h : T.Shelved t) : row ∈ T.softRemoved t id ↔
    (∃ r ∈ T, T.IsUnder t id r ∧ row = r.marked t) ∨ row ∈ T ∧ ¬T.IsUnder t id row := by
  have hnodup := nodup_family t T id
  unfold softRemoved
  rw [remove_soft_eq h.keeps hnodup, mem_softDelete (areLive_liveRows h.keeps _)
    (nodup_flatMap_liveRows h.keeps hnodup)]
  constructor
  · rintro (⟨r, hr, rfl⟩ | ⟨hrow, hnot, -⟩)
    · obtain ⟨hmem, hunder⟩ := h.mem_family_rows.1 hr
      exact .inl ⟨r, hmem, hunder, rfl⟩
    · exact .inr ⟨hrow, fun hunder => hnot (h.mem_family_rows.2 ⟨hrow, hunder⟩)⟩
  · rintro (⟨r, hmem, hunder, rfl⟩ | ⟨hrow, hnot⟩)
    · exact .inl ⟨r, h.mem_family_rows.2 ⟨hmem, hunder⟩, rfl⟩
    · refine .inr ⟨hrow, fun hmem => hnot (h.mem_family_rows.1 hmem).2, fun r hr ha => ?_⟩
      have hlive := h.isLive r (h.mem_family_rows.1 hr).1
      exact (h.isLive row hrow).address_ne_marked hlive ha

theorem marked_mem_softRemoved (h : T.Shelved t) (hlive : row.IsLive t) :
    row.marked t ∈ T.softRemoved t id ↔ row ∈ T ∧ T.IsUnder t id row := by
  rw [h.mem_softRemoved]
  constructor
  · rintro (⟨r, hmem, hunder, he⟩ | ⟨hmem, -⟩)
    · obtain rfl := hlive.marked_injective (h.isLive r hmem) he
      exact ⟨hmem, hunder⟩
    · exact absurd rfl ((h.isLive _ hmem).ne_marked hlive)
  · rintro ⟨hmem, hunder⟩
    exact .inl ⟨row, hmem, hunder, rfl⟩

theorem keeps_softRemoved (h : T.Shelved t) (id : String) : (T.softRemoved t id).Keeps t :=
  h.keeps.of_edits (fun _ hrow => hrow) (edits_remove h.keeps true (nodup_family t T id))

theorem not_isUnder_of_isLive (h : T.Shelved t) (hrow : row ∈ T.softRemoved t id)
    (hunmarked : SoftDelete.isMarked t row.address.partition = false) : ¬T.IsUnder t id row := by
  rcases h.mem_softRemoved.1 hrow with ⟨r, hmem, -, rfl⟩ | ⟨-, hnot⟩
  · rw [(Row.IsDeleted.mark (h.isLive r hmem)).isMarked] at hunmarked
    cases hunmarked
  · exact hnot

theorem mem_softRemoved_of_not_isUnder (h : T.Shelved t) (hnot : ¬T.IsUnder t id row) :
    row ∈ T.softRemoved t id ↔ row ∈ T := by
  rw [h.mem_softRemoved]
  constructor
  · rintro (⟨r, -, hunder, rfl⟩ | ⟨hmem, -⟩)
    · exact absurd hunder hnot
    · exact hmem
  · intro hmem
    exact .inr ⟨hmem, hnot⟩

theorem isDeletedChild_iff (h : T.Shelved t) : (T.softRemoved t id).IsDeletedChild t a b ↔
    T.IsChild t a b ∧ ReflTransGen (T.IsChild t) id b := by
  constructor
  · rintro ⟨d, hd, ht, hparent, rfl⟩
    obtain ⟨hmem, m, hm, hid⟩ := (h.marked_mem_softRemoved (.document d ht)).1 hd
    obtain rfl : d.id = m := Option.some.inj hid
    exact ⟨⟨d, hmem, ht, hparent, rfl⟩, hm⟩
  · rintro ⟨⟨d, hmem, ht, hparent, rfl⟩, hb⟩
    have hd := (h.marked_mem_softRemoved (.document d ht)).2 ⟨hmem, d.id, hb, rfl⟩
    exact ⟨d, hd, ht, hparent, rfl⟩

theorem reaches_iff (h : T.Shelved t) :
    ReflTransGen ((T.softRemoved t id).IsDeletedChild t) id m ↔ ReflTransGen (T.IsChild t) id m := by
  constructor
  · intro hm
    exact ReflTransGen.mono (fun a b hb => (h.isDeletedChild_iff.1 hb).1) _ _ hm
  · intro hm
    induction hm with
    | refl => exact .refl
    | tail hpath hchild ih => exact ih.tail (h.isDeletedChild_iff.2 ⟨hchild, hpath.tail hchild⟩)

theorem deletedPartitionRows_ne_nil (h : T.Shelved t) (hm : ReflTransGen (T.IsChild t) id m)
    (hlive : (T.document? t m).isSome) : (T.softRemoved t id).deletedPartitionRows t m ≠ [] := by
  obtain ⟨d, hmem, ht, rfl⟩ := (isSome_document?_iff h.keeps).1 hlive
  have hd := (h.marked_mem_softRemoved (.document d ht)).2 ⟨hmem, d.id, hm, rfl⟩
  subst ht
  exact List.ne_nil_of_mem (mem_deletedPartitionRows.2 ⟨hd, rfl⟩)

theorem restorable_ne_nil (h : T.Shelved t) (hlive : (T.document? t id).isSome) :
    (T.softRemoved t id).restorable t id ≠ [] := by
  obtain ⟨row, hrow⟩ := List.exists_mem_of_ne_nil _ (h.deletedPartitionRows_ne_nil .refl hlive)
  obtain ⟨hmem, hp⟩ := mem_deletedPartitionRows.1 hrow
  have hself : id ∈ (T.softRemoved t id).deletedFamily t id :=
    mem_reachable_of_mem (List.mem_singleton_self id)
  exact List.ne_nil_of_mem
    ((mem_restorable_of_partition (h.keeps_softRemoved id) hmem hp).2 hself)

theorem mem_deletedFamily_iff (h : T.Shelved t) (hlive : (T.document? t id).isSome) :
    m ∈ (T.softRemoved t id).deletedFamily t id ↔ ReflTransGen (T.IsChild t) id m := by
  rw [Table.mem_deletedFamily_iff (h.keeps_softRemoved id) (h.restorable_ne_nil hlive),
    h.reaches_iff]

theorem deletedLeaf?_eq (h : T.Shelved t) (hd : T.document? t m = some d) (hrow : row ∈ T)
    (hunder : T.IsUnder t id row) (hleaf : d.path.bind (Folder.leafRow? t m) = some row) :
    (T.softRemoved t id).deletedLeaf? t m = some (row.marked t) := by
  have hkeeps := h.keeps_softRemoved id
  have hlive := h.isLive row hrow
  have hmarked := (h.marked_mem_softRemoved hlive).2 ⟨hrow, hunder⟩
  have hentry : (row.marked t).key.first =
      some ⟨SoftDelete.markKey t (Partition.leaf t m), SortKey.leafLookup⟩ := by
    obtain ⟨path, -, hrow'⟩ := Option.bind_eq_some_iff.1 hleaf
    obtain ⟨parents, name, -, rfl⟩ := Folder.exists_of_leafRow? hrow'
    rfl
  obtain ⟨w, hw⟩ := Option.isSome_iff_exists.1 (isSome_leafLookup hmarked hentry)
  obtain ⟨hwmem, parents, name, hnames, rfl⟩ := deletedLeaf?_eq_some hkeeps hw
  -- the leaf that is found was in the table before, where the document has one leaf only
  have hmem := ((h.marked_mem_softRemoved (.leaf m parents name hnames)).1 hwmem).1
  have hone := h.leafRow?_eq hd hmem rfl rfl
  rw [hleaf] at hone
  rw [Option.some.inj hone]
  exact hw

theorem marked_mem_restorable (h : T.Shelved t) (hroot : (T.document? t id).isSome)
    (hlive : row.IsLive t) :
    row.marked t ∈ (T.softRemoved t id).restorable t id ↔ row ∈ T ∧ T.IsUnder t id row := by
  have hkeeps := h.keeps_softRemoved id
  constructor
  · intro hrow
    exact (h.marked_mem_softRemoved hlive).1 (mem_restorable hkeeps hrow).1
  · rintro ⟨hrow, hunder⟩
    have hmarked := (h.marked_mem_softRemoved hlive).2 ⟨hrow, hunder⟩
    obtain ⟨m, hm, hid⟩ := hunder
    have hfamily := (h.mem_deletedFamily_iff hroot).2 hm
    rcases hlive.of_documentId? hid with hp | ⟨parents, name, hnames, rfl⟩
    · have hpartition : (row.marked t).address.partition =
          SoftDelete.markKey t (Partition.document t m) := by
        rw [← hp]
        rfl
      exact (mem_restorable_of_partition hkeeps hmarked hpartition).2 hfamily
    · obtain ⟨m', d, hd, hpath⟩ := h.leaf _ hrow rfl
      obtain rfl : m = m' := Option.some.inj (Row.documentId?_leafRow? hpath)
      have hpartition := h.deletedPartitionRows_ne_nil hm (Option.isSome_of_eq_some hd)
      have hleaf := h.deletedLeaf?_eq hd hrow ⟨m, hm, rfl⟩ hpath
      exact List.mem_flatMap.2 ⟨m, hfamily, mem_deletedRows_iff.2 ⟨hpartition, .inr hleaf⟩⟩

theorem mem_lives (h : T.Shelved t) (hroot : (T.document? t id).isSome)
    (hr : (T.softRemoved t id).Restores t id lives) :
    row ∈ lives ↔ row ∈ T ∧ T.IsUnder t id row := by
  constructor
  · intro hl
    have hlive := hr.isLive row hl
    exact (h.marked_mem_restorable hroot hlive).1 ((hr.mem_lives hlive).1 hl)
  · rintro ⟨hrow, hunder⟩
    have hlive := h.isLive row hrow
    exact (hr.mem_lives hlive).2 ((h.marked_mem_restorable hroot hlive).2 ⟨hrow, hunder⟩)

theorem mem_move_back (h : T.Shelved t) (hroot : (T.document? t id).isSome)
    (hr : (T.softRemoved t id).Restores t id lives) :
    row ∈ (T.softRemoved t id).move (backMoves t lives) ↔ row ∈ T := by
  have hkeeps := h.keeps_softRemoved id
  have hlives {row : Row} : row ∈ lives ↔ row ∈ T ∧ T.IsUnder t id row := h.mem_lives hroot hr
  rw [hr.mem_iff hkeeps]
  constructor
  · rintro (hl | ⟨hmem, hnot, -⟩)
    · exact (hlives.1 hl).1
    · rcases h.mem_softRemoved.1 hmem with ⟨r, hr', hunder, rfl⟩ | ⟨hrow, -⟩
      · have hrestorable := (h.marked_mem_restorable hroot (h.isLive r hr')).2 ⟨hr', hunder⟩
        exact absurd hrestorable hnot
      · exact hrow
  · intro hrow
    -- a row of the family comes back, another one has never moved and is not written over
    by_cases hunder : T.IsUnder t id row
    · exact .inl (hlives.2 ⟨hrow, hunder⟩)
    have hmem := (h.mem_softRemoved_of_not_isUnder hunder).2 hrow
    have hnot : row ∉ (T.softRemoved t id).restorable t id :=
      not_mem_restorable hkeeps (h.isLive row hrow)
    refine .inr ⟨hmem, hnot, fun live hl ha => hunder ?_⟩
    obtain ⟨hlmem, hlunder⟩ := hlives.1 hl
    rw [eq_of_address_eq hrow hlmem ha]
    exact hlunder

theorem indexPaths_restorable (h : T.Shelved t) (id : String) :
    T.indexPaths t ((T.softRemoved t id).restorableDocuments t id) = T := by
  rw [indexPaths_eq]
  apply putAll_of_forall_mem
  intro row hrow
  obtain ⟨d, hd, hrow⟩ := List.mem_flatMap.1 hrow
  obtain ⟨m, -, hd⟩ := List.mem_flatMap.1 hd
  obtain ⟨hmarked, ht, rfl⟩ := (mem_deletedDocuments (h.keeps_softRemoved id)).1 hd
  have hmem := ((h.marked_mem_softRemoved (.document d ht)).1 hmarked).1
  have hlive : T.document? t d.id = some d := (document?_eq_some_iff h.keeps).2 ⟨hmem, ht, rfl⟩
  exact h.path d.id d hlive row hrow

theorem restored_eq (h : T.Shelved t) (hroot : (T.document? t id).isSome)
    (hr : (T.softRemoved t id).Restores t id lives) :
    (T.softRemoved t id).broughtBack t lives ((T.softRemoved t id).restorableDocuments t id) = T := by
  have hrows : ((T.softRemoved t id).move (backMoves t lives)).rows = T.rows :=
    Rows.eq_of_mem_iff fun row => h.mem_move_back hroot hr
  have hsoft : T.softRemoved t id = { T with rows := (T.softRemoved t id).rows } := by
    unfold softRemoved
    rw [remove_soft_eq h.keeps (nodup_family t T id)]
    exact move_eq T _
  have hback : (T.softRemoved t id).move (backMoves t lives) = T := by
    calc (T.softRemoved t id).move (backMoves t lives)
        = { T.softRemoved t id with
            rows := ((T.softRemoved t id).move (backMoves t lives)).rows } := move_eq _ _
      _ = { T.softRemoved t id with rows := T.rows } := by rw [hrows]
      _ = T := by rw [hsoft]
  rw [broughtBack, hback]
  exact h.indexPaths_restorable id

theorem document?_softRemoved (h : T.Shelved t) (id : String) :
    (T.softRemoved t id).document? t id = none := by
  by_contra hsome
  obtain ⟨d, hd⟩ := Option.ne_none_iff_exists'.1 hsome
  obtain ⟨hrow, ht, hid⟩ := (document?_eq_some_iff (h.keeps_softRemoved id)).1 hd
  have hunmarked := (Row.IsLive.document d ht).isMarked
  exact h.not_isUnder_of_isLive hrow hunmarked ⟨id, .refl, congrArg some hid⟩

end Shelved

end Table

namespace Store

variable {t : Tenant} {s : Store} {id : String}

theorem run_softDelete (hlive : (s.table.document? t id).isSome) :
    (deleteDocument t id true).run s =
      (.ok true, { s with table := s.table.softRemoved t id }) := by
  have hsome : ¬(s.table.document? t id).isNone := by
    rw [Option.isNone_iff_eq_none]
    exact Option.isSome_iff_ne_none.1 hlive
  rw [run_deleteDocument, if_neg hsome]
  rfl

theorem run_restore_softRemoved (h : s.table.Shelved t) (hlive : (s.table.document? t id).isSome) :
    (restoreDocument t id).run { s with table := s.table.softRemoved t id } = (.ok true, s) := by
  obtain ⟨lives, hrestores, hmoves⟩ := Table.exists_restores (h.keeps_softRemoved id) id
  have hnone := h.document?_softRemoved id
  have hrows := h.restorable_ne_nil hlive
  have htable : ((s.table.softRemoved t id).move (Table.backMoves t lives)).indexPaths t
      ((s.table.softRemoved t id).restorableDocuments t id) = s.table :=
    h.restored_eq hlive hrestores
  rw [run_restoreDocument]
  simp only [hnone, hrows, hmoves, htable, Option.isSome_none, Bool.false_eq_true, if_false]

/-- Without soft deletions before, a soft deletion takes away the rows of a live document and of the
live documents below it and no others, and a restore then gives back the store as it was. -/
theorem restore_softDelete (c : Config) (name : String) (maxBatchSize : Nat) (clock : Clock)
    {t : Tenant} {requests : List Request}
    (hrequests : ∀ r ∈ requests, r.tenant = t ∧ r.operation.isPlain) {id : String}
    (hlive : ((run c (fresh name maxBatchSize clock) requests).2.table.document? t id).isSome) :
    let s := (run c (fresh name maxBatchSize clock) requests).2
    let deleted := (deleteDocument t id true).run s
    deleted.1 = .ok true ∧
      (∀ row ∈ deleted.2.table, SoftDelete.isMarked t row.address.partition = false →
        ¬s.table.IsUnder t id row) ∧
      (∀ row, ¬s.table.IsUnder t id row → (row ∈ deleted.2.table ↔ row ∈ s.table)) ∧
      (restoreDocument t id).run deleted.2 = (.ok true, s) := by
  intro s deleted
  have hshelved : s.table.Shelved t :=
    shelved_run hrequests (shelved_fresh t name maxBatchSize clock)
  have hdeleted : deleted = (.ok true, { s with table := s.table.softRemoved t id }) :=
    run_softDelete hlive
  rw [hdeleted]
  refine ⟨rfl, fun row hrow hunmarked => ?_, fun row hnot => ?_, ?_⟩
  · exact hshelved.not_isUnder_of_isLive hrow hunmarked
  · exact hshelved.mem_softRemoved_of_not_isUnder hnot
  · exact run_restore_softRemoved hshelved hlive

def shelf : List Request :=
  let document (id path : String) : Document :=
    { id, path := some path, userId := "u", inserted := ⟨1704067200, 0⟩,
      modified := ⟨1704067200, 0⟩ }
  let child (path : String) : Document := { document "c" path with parent := some "p" }
  let status : Tag :=
    { documentId := "", key := "status", value := .many ["draft", "open"], userId := "u",
      inserted := ⟨1704067200, 0⟩ }
  let year : Attribute :=
    { documentId := "", key := "year", value := .text "2024", userId := "u",
      inserted := ⟨1704067200, 0⟩ }
  let request (op : Operation) : Request := ⟨.site "acme", ⟨0⟩, op⟩
  [request (.saveDocument (document "p" "a/b.txt")), request (.saveDocument (child "a/x/c.txt")),
    request (.saveDocument (child "a/c.txt")), request (.saveDocument (document "q" "a/b.txt")),
    request (.addTags "c" [status]), request (.setAttributes "p" [year])]

theorem restore_softDelete_shelf :
    (∀ r ∈ shelf, r.tenant = .site "acme" ∧ r.operation.isPlain) ∧
    let s := (run {} (fresh "documents" 100 ⟨0⟩) shelf).2
    let deleted := (deleteDocument (.site "acme") "p" true).run s
    deleted.1 = .ok true ∧
      (∀ row ∈ deleted.2.table, SoftDelete.isMarked (.site "acme") row.address.partition = false →
        ¬s.table.IsUnder (.site "acme") "p" row) ∧
      (∀ row, ¬s.table.IsUnder (.site "acme") "p" row →
        (row ∈ deleted.2.table ↔ row ∈ s.table)) ∧
      (restoreDocument (.site "acme") "p").run deleted.2 = (.ok true, s) := by
  have hrequests : ∀ r ∈ shelf, r.tenant = .site "acme" ∧ r.operation.isPlain := by decide +kernel
  have hlive : ((run {} (fresh "documents" 100 ⟨0⟩) shelf).2.table.document?
      (.site "acme") "p").isSome := by decide +kernel
  exact ⟨hrequests, restore_softDelete {} "documents" 100 ⟨0⟩ hrequests hlive⟩

end Store

end Cabinet
