import Cabinet.Proofs.Closure
import Cabinet.Proofs.Record.Filed
import Cabinet.Proofs.Table.Scan
import Cabinet.Store.Attributes
import Cabinet.Store.Tags

/-! What a tenant reads from a table in which it comes across its own rows only. Main statements:
the live document with an id, the rows and children of a document, and the documents below it. -/

namespace Cabinet

open Relation

def Partition.IsOwn (t : Tenant) (p : String) : Prop := Partition.IsLive t p ∨ Partition.IsDeleted t p

/-- A row that tenant `t` does not come across in any index. -/
def Row.IsForeign (t : Tenant) (row : Row) : Prop :=
  ∀ i a, row.key.entry i = some a → ¬Partition.IsOwn t a.partition

theorem Row.IsFiled.entry {t : Tenant} {row : Row} (h : row.IsFiled t) {i : Index} {a : Address}
    (ha : row.key.entry i = some a) : Partition.IsOwn t a.partition := by
  rcases h with h | h
  · exact .inl (h.entry ha)
  · exact .inr (h.entry ha)

namespace Table

/-- Whatever tenant `t` comes across in a table is filed by it. -/
def Keeps (t : Tenant) (T : Table) : Prop := ∀ row ∈ T, row.IsFiled t ∨ row.IsForeign t

variable {t : Tenant} {T : Table} {row : Row} {id key p : String} {d : Document}

namespace Keeps

theorem isFiled (h : T.Keeps t) (hrow : row ∈ T) {i : Index} {a : Address}
    (ha : row.key.entry i = some a) (hp : Partition.IsOwn t a.partition) : row.IsFiled t :=
  (h row hrow).resolve_right fun hf => hf i a ha hp

theorem isLive (h : T.Keeps t) (hrow : row ∈ T) {i : Index} {a : Address}
    (ha : row.key.entry i = some a) (hp : Partition.IsLive t a.partition) : row.IsLive t :=
  (h.isFiled hrow ha (.inl hp)).isLive_of_entry ha hp

theorem isDeleted (h : T.Keeps t) (hrow : row ∈ T) {i : Index} {a : Address}
    (ha : row.key.entry i = some a) (hp : Partition.IsDeleted t a.partition) : row.IsDeleted t :=
  (h.isFiled hrow ha (.inr hp)).isDeleted_of_entry ha hp

theorem isLive_of_partition (h : T.Keeps t) (hrow : row ∈ T)
    (hp : Partition.IsLive t row.address.partition) : row.IsLive t :=
  h.isLive hrow (i := .primary) rfl hp

theorem isLive_of_document (h : T.Keeps t) (hrow : row ∈ T)
    (hp : row.address.partition = Partition.document t id) : row.IsLive t :=
  h.isLive_of_partition hrow (hp ▸ Partition.isLive_document)

theorem isDeleted_of_partition (h : T.Keeps t) (hrow : row ∈ T)
    (hp : Partition.IsDeleted t row.address.partition) : row.IsDeleted t :=
  h.isDeleted hrow (i := .primary) rfl hp

end Keeps

theorem document?_eq_some_iff (h : T.Keeps t) :
    T.document? t id = some d ↔ d.liveRow ∈ T ∧ d.tenant = t ∧ d.id = id := by
  unfold document?
  rw [Option.bind_eq_some_iff]
  constructor
  · rintro ⟨row, hget, hd⟩
    obtain ⟨hrow, ha⟩ := get?_eq_some_iff.1 hget
    have hlive : row.IsLive t := h.isLive_of_document hrow (congrArg Address.partition ha)
    obtain ⟨d', ht, hid, rfl⟩ := hlive.eq_liveRow ha
    obtain rfl : d' = d := Option.some.inj hd
    exact ⟨hrow, ht, hid⟩
  · rintro ⟨hrow, rfl, rfl⟩
    exact ⟨d.liveRow, get?_eq_some_iff.2 ⟨hrow, rfl⟩, rfl⟩

theorem isSome_document?_iff (h : T.Keeps t) : (T.document? t id).isSome ↔
    ∃ d : Document, d.liveRow ∈ T ∧ d.tenant = t ∧ d.id = id := by
  rw [Option.isSome_iff_exists]
  exact exists_congr fun d => document?_eq_some_iff h

theorem mem_children (h : T.Keeps t) :
    d ∈ T.children t p ↔ d.liveRow ∈ T ∧ d.tenant = t ∧ d.parent = some p := by
  unfold children
  rw [List.mem_filterMap]
  constructor
  · rintro ⟨row, hrow, hd⟩
    obtain ⟨hmem, hposition⟩ := (mem_queryAll rfl).1 hrow
    obtain ⟨⟨partition, sort⟩, hentry, hp, -⟩ := isSome_position?.1 hposition
    obtain rfl : partition = Partition.children t p := hp
    have hlive : row.IsLive t := h.isLive hmem hentry Partition.isLive_children
    obtain ⟨d', ht, hparent, rfl⟩ := hlive.eq_child hentry
    obtain rfl : d' = d := Option.some.inj hd
    exact ⟨hmem, ht, hparent⟩
  · rintro ⟨hrow, rfl, hparent⟩
    refine ⟨d.liveRow, (mem_queryAll rfl).2 ⟨hrow, isSome_position?.2 ?_⟩, rfl⟩
    exact ⟨⟨Partition.children d.tenant p, d.id⟩, by simp [Document.liveRow, Document.liveKey,
      RowKey.entry, hparent], rfl, rfl⟩

/-- The live document `b` belongs to `a`. -/
def IsChild (t : Tenant) (T : Table) (a b : String) : Prop :=
  ∃ d : Document, d.liveRow ∈ T ∧ d.tenant = t ∧ d.parent = some a ∧ d.id = b

theorem mem_childIds (h : T.Keeps t) (a b : String) :
    b ∈ (T.children t a).map Document.id ↔ T.IsChild t a b := by
  rw [List.mem_map]
  constructor
  · rintro ⟨d, hd, hid⟩
    obtain ⟨hrow, ht, hparent⟩ := (mem_children h).1 hd
    exact ⟨d, hrow, ht, hparent, hid⟩
  · rintro ⟨d, hrow, ht, hparent, hid⟩
    exact ⟨d, (mem_children h).2 ⟨hrow, ht, hparent⟩, hid⟩

def owners (T : Table) : Finset String := (T.rows.toList.filterMap Row.documentId?).toFinset

theorem mem_owners : id ∈ T.owners ↔ ∃ row ∈ T, row.documentId? = some id := by
  simp [owners, mem_toList]

theorem card_owners_le (T : Table) : T.owners.card < T.rows.size + 1 := by
  have hcard := List.toFinset_card_le (T.rows.toList.filterMap Row.documentId?)
  have hlength := List.length_filterMap_le Row.documentId? T.rows.toList
  have hsize : T.rows.size = T.rows.toList.length := rfl
  have howners : T.owners.card ≤ (T.rows.toList.filterMap Row.documentId?).length := hcard
  omega

theorem childIds_subset (h : T.Keeps t) (a : String) :
    ∀ b ∈ (T.children t a).map Document.id, b ∈ T.owners := by
  intro b hb
  obtain ⟨d, hrow, -, -, hid⟩ := (mem_childIds h a b).1 hb
  exact mem_owners.2 ⟨d.liveRow, hrow, congrArg some hid⟩

theorem mem_family (h : T.Keeps t) {m : String} :
    m ∈ T.family t id ↔ ReflTransGen (T.IsChild t) id m := by
  have hstep : (fun a b => b ∈ (T.children t a).map Document.id) = T.IsChild t := by
    funext a b
    exact propext (mem_childIds h a b)
  unfold family
  rw [mem_reachable_iff (childIds_subset h) T.card_owners_le, hstep]

theorem nodup_family (t : Tenant) (T : Table) (id : String) : (T.family t id).Nodup :=
  nodup_reachable (List.nodup_singleton id)

theorem isSome_document?_of_mem_family (h : T.Keeps t) (hlive : (T.document? t id).isSome)
    {m : String} (hm : m ∈ T.family t id) : (T.document? t m).isSome := by
  rw [mem_family h] at hm
  induction hm with
  | refl => exact hlive
  | tail _ hstep ih =>
    obtain ⟨d, hrow, ht, -, hid⟩ := hstep
    exact (isSome_document?_iff h).2 ⟨d, hrow, ht, hid⟩

theorem leafLookup_eq_some (hrow : T.leafLookup p = some row) :
    row ∈ T ∧ ∃ sort, row.key.entry .first = some ⟨p, sort⟩ := by
  unfold leafLookup at hrow
  obtain ⟨hmem, hposition⟩ := (mem_queryAll rfl).1 (List.mem_of_head? hrow)
  obtain ⟨⟨partition, sort⟩, hentry, hp, -⟩ := isSome_position?.1 hposition
  obtain rfl : partition = p := hp
  exact ⟨hmem, sort, hentry⟩

theorem isSome_leafLookup (hrow : row ∈ T)
    (hfirst : row.key.first = some ⟨p, SortKey.leafLookup⟩) : (T.leafLookup p).isSome := by
  have hposition : row ∈ T.queryAll
      { index := .first, partition := p, condition := some (.equals SortKey.leafLookup) } := by
    refine (mem_queryAll rfl).2 ⟨hrow, isSome_position?.2 ?_⟩
    exact ⟨⟨p, SortKey.leafLookup⟩, hfirst, rfl, by simp [Condition.holds]⟩
  unfold leafLookup
  rw [List.isSome_head?]
  exact List.ne_nil_of_mem hposition

theorem leaf?_eq_some (h : T.Keeps t) (hrow : T.leaf? t id = some row) :
    row ∈ T ∧ row.IsLive t ∧ ∃ parents name, (∀ s ∈ parents ++ [name], Path.IsName s) ∧
      row = (Folder.leaf t id parents name).row t := by
  obtain ⟨hmem, sort, hentry⟩ := leafLookup_eq_some hrow
  have hlive : row.IsLive t := h.isLive hmem hentry Partition.isLive_leaf
  exact ⟨hmem, hlive, hlive.eq_leaf hentry⟩

theorem mem_liveRows (h : T.Keeps t) (hrow : row ∈ T.liveRows t id) :
    row ∈ T ∧ row.IsLive t ∧ row.documentId? = some id := by
  unfold liveRows at hrow
  rcases List.mem_append.1 hrow with hrow | hrow
  · obtain ⟨hmem, hp⟩ := mem_partitionRows.1 hrow
    have hlive : row.IsLive t := h.isLive_of_document hmem hp
    exact ⟨hmem, hlive, (hlive.documentId?_of_partition hp).1⟩
  · rw [Option.mem_toList] at hrow
    obtain ⟨hmem, hlive, parents, name, -, rfl⟩ := leaf?_eq_some h hrow
    exact ⟨hmem, hlive, rfl⟩

theorem mem_liveRows_of_partition (hrow : row ∈ T)
    (hp : row.address.partition = Partition.document t id) : row ∈ T.liveRows t id :=
  List.mem_append_left _ (mem_partitionRows.2 ⟨hrow, hp⟩)

theorem mem_tagRows (h : T.Keeps t) (hrow : row ∈ T.tagRows t id key) :
    row ∈ T ∧ row.IsLive t ∧ row.address.partition = Partition.document t id ∧
      row.document? = none := by
  unfold tagRows at hrow
  obtain ⟨hfrom, htag⟩ := List.mem_filter.1 hrow
  obtain ⟨hmem, hp, -⟩ := mem_rowsFrom.1 hfrom
  refine ⟨hmem, h.isLive_of_document hmem hp, hp, ?_⟩
  obtain ⟨key, record⟩ := row
  cases record <;> simp_all [Row.tag?, Row.document?]

theorem mem_attributeRows (h : T.Keeps t) (hrow : row ∈ T.attributeRows t id key) :
    row ∈ T ∧ row.IsLive t ∧ row.address.partition = Partition.document t id ∧
      row.document? = none := by
  unfold attributeRows at hrow
  obtain ⟨hfrom, hattribute⟩ := List.mem_filter.1 hrow
  obtain ⟨hmem, hp, -⟩ := mem_rowsFrom.1 hfrom
  refine ⟨hmem, h.isLive_of_document hmem hp, hp, ?_⟩
  obtain ⟨key, record⟩ := row
  cases record <;> simp_all [Row.attribute?, Row.document?]

theorem mem_deletedPartitionRows : row ∈ T.deletedPartitionRows t id ↔
    row ∈ T ∧ row.address.partition = SoftDelete.markKey t (Partition.document t id) :=
  mem_partitionRows

theorem exists_of_deletedPartition (h : T.Keeps t) (hrow : row ∈ T.deletedPartitionRows t id) :
    ∃ live : Row, live.IsLive t ∧ live.address.partition = Partition.document t id ∧
      row = live.marked t := by
  obtain ⟨hmem, hp⟩ := mem_deletedPartitionRows.1 hrow
  have hdeleted : row.IsDeleted t :=
    h.isDeleted_of_partition hmem (hp ▸ Partition.isLive_document.isDeleted_markKey)
  obtain ⟨live, hlive, rfl, -⟩ := hdeleted.unmark
  exact ⟨live, hlive, hlive.partition.markKey_injective Partition.isLive_document hp, rfl⟩

theorem deletedLeaf?_eq_some (h : T.Keeps t) (hrow : T.deletedLeaf? t id = some row) :
    row ∈ T ∧ ∃ parents name, (∀ s ∈ parents ++ [name], Path.IsName s) ∧
      row = ((Folder.leaf t id parents name).row t).marked t := by
  obtain ⟨hmem, sort, hentry⟩ := leafLookup_eq_some hrow
  have hdeleted : row.IsDeleted t :=
    h.isDeleted hmem hentry Partition.isLive_leaf.isDeleted_markKey
  obtain ⟨live, hlive, rfl, -⟩ := hdeleted.unmark
  rw [Row.entry_marked t live (by decide)] at hentry
  obtain ⟨⟨partition, sort⟩, hlookup, he⟩ := Option.map_eq_some_iff.1 hentry
  have hpartition := (hlive.entry hlookup).markKey_injective Partition.isLive_leaf
    (Address.mk.inj he).1
  obtain rfl : partition = Partition.leaf t id := hpartition
  obtain ⟨parents, name, hnames, rfl⟩ := hlive.eq_leaf hlookup
  exact ⟨hmem, parents, name, hnames, rfl⟩

theorem mem_deletedRows_iff : row ∈ T.deletedRows t id ↔ T.deletedPartitionRows t id ≠ [] ∧
    (row ∈ T.deletedPartitionRows t id ∨ T.deletedLeaf? t id = some row) := by
  unfold deletedRows
  by_cases hnil : T.deletedPartitionRows t id = []
  · simp [hnil]
  · simp [hnil, List.mem_append, Option.mem_toList]

theorem mem_deletedRows (h : T.Keeps t) (hrow : row ∈ T.deletedRows t id) :
    row ∈ T ∧ ∃ live : Row, live.IsLive t ∧ live.documentId? = some id ∧ row = live.marked t := by
  obtain ⟨-, hpartition | hleaf⟩ := mem_deletedRows_iff.1 hrow
  · obtain ⟨live, hlive, hp, rfl⟩ := exists_of_deletedPartition h hpartition
    have hid := (hlive.documentId?_of_partition hp).1
    exact ⟨(mem_deletedPartitionRows.1 hpartition).1, live, hlive, hid, rfl⟩
  · obtain ⟨hmem, parents, name, hnames, rfl⟩ := deletedLeaf?_eq_some h hleaf
    exact ⟨hmem, _, .leaf id parents name hnames, rfl, rfl⟩

theorem mem_deletedDocuments (h : T.Keeps t) : d ∈ T.deletedDocuments t id ↔
    d.liveRow.marked t ∈ T ∧ d.tenant = t ∧ d.id = id := by
  unfold deletedDocuments
  rw [List.mem_filterMap]
  constructor
  · rintro ⟨row, hrow, hd⟩
    obtain ⟨hdeleted, hsort⟩ := List.mem_filter.1 hrow
    obtain ⟨live, hlive, hp, rfl⟩ := exists_of_deletedPartition h hdeleted
    have hs : live.address.sort = SortKey.document := by
      have hmark := of_decide_eq_true hsort
      rw [Row.address_marked, Address.marked, SortKey.markKey_default, SortKey.markKey_default,
        String.append_right_inj] at hmark
      exact hmark
    have ha : live.address = ⟨Partition.document t id, SortKey.document⟩ := by
      rw [← hp, ← hs]
    obtain ⟨d', ht, hid, rfl⟩ := hlive.eq_liveRow ha
    obtain rfl : d' = d := Option.some.inj hd
    exact ⟨(mem_deletedPartitionRows.1 hdeleted).1, ht, hid⟩
  · rintro ⟨hrow, rfl, rfl⟩
    have hmem := mem_deletedPartitionRows.2 ⟨hrow, rfl⟩
    exact ⟨d.liveRow.marked d.tenant, List.mem_filter.2 ⟨hmem, decide_eq_true rfl⟩, rfl⟩

def IsDeletedChild (t : Tenant) (T : Table) (a b : String) : Prop :=
  ∃ d : Document, d.liveRow.marked t ∈ T ∧ d.tenant = t ∧ d.parent = some a ∧ d.id = b

theorem mem_deletedChildren (h : T.Keeps t) (a b : String) :
    b ∈ T.deletedChildren t a ↔ T.deletedPartitionRows t a ≠ [] ∧ T.IsDeletedChild t a b := by
  unfold deletedChildren
  by_cases hnil : T.deletedPartitionRows t a = []
  · simp [hnil]
  simp only [hnil, if_false, ne_eq, not_false_eq_true, true_and, List.mem_filterMap]
  constructor
  · rintro ⟨row, hrow, hid⟩
    obtain ⟨hmem, hposition⟩ := (mem_queryAll rfl).1 hrow
    obtain ⟨⟨partition, sort⟩, hentry, hp, -⟩ := isSome_position?.1 hposition
    obtain rfl : partition = SoftDelete.markKey t (Partition.children t a) := hp
    have hdeleted : row.IsDeleted t :=
      h.isDeleted hmem hentry Partition.isLive_children.isDeleted_markKey
    obtain ⟨live, hlive, rfl, -⟩ := hdeleted.unmark
    rw [Row.entry_marked t live (i := .second) (by decide)] at hentry
    obtain ⟨⟨partition, sort⟩, hchild, he⟩ := Option.map_eq_some_iff.1 hentry
    have hpartition := (hlive.entry hchild).markKey_injective Partition.isLive_children
      (Address.mk.inj he).1
    obtain rfl : partition = Partition.children t a := hpartition
    obtain ⟨d, ht, hparent, rfl⟩ := hlive.eq_child hchild
    exact ⟨d, hmem, ht, hparent, Option.some.inj hid⟩
  · rintro ⟨d, hrow, rfl, hparent, rfl⟩
    refine ⟨d.liveRow.marked d.tenant, (mem_queryAll rfl).2 ⟨hrow, isSome_position?.2 ?_⟩, rfl⟩
    refine ⟨SoftDelete.markEntry d.tenant ⟨Partition.children d.tenant a, d.id⟩, ?_, rfl, rfl⟩
    simp [Row.marked, SoftDelete.mark, Document.liveRow, Document.liveKey, RowKey.entry, hparent]

theorem deletedChildren_subset (h : T.Keeps t) (a : String) :
    ∀ b ∈ T.deletedChildren t a, b ∈ T.owners := by
  intro b hb
  obtain ⟨-, d, hrow, -, -, hid⟩ := (mem_deletedChildren h a b).1 hb
  exact mem_owners.2 ⟨d.liveRow.marked t, hrow, congrArg some hid⟩

theorem mem_deletedFamily (h : T.Keeps t) {m : String} : m ∈ T.deletedFamily t id ↔
    ReflTransGen (fun a b => b ∈ T.deletedChildren t a) id m := by
  unfold deletedFamily
  exact mem_reachable_iff (deletedChildren_subset h) T.card_owners_le

theorem nodup_deletedFamily (t : Tenant) (T : Table) (id : String) :
    (T.deletedFamily t id).Nodup :=
  nodup_reachable (List.nodup_singleton id)

end Table

end Cabinet
