import Cabinet.Error
import Cabinet.Proofs.Folder.Path
import Cabinet.Proofs.Key.Layout

/-! The rows that tenants file: each stands under keys of its record, live or soft-deleted. Main
statements: the place of a row tells its kind and its document, and taking out the mark of soft
deletion gives the row back. -/

namespace Cabinet

theorem Tag.mem_rows {t : Tenant} {tag : Tag} {row : Row} (h : row ∈ tag.rows t) :
    ∃ tail first value, row = ⟨{
        primary := ⟨Partition.document t tag.documentId, SortKey.tags ++ tail⟩
        first := first
        second := some ⟨Partition.tag t tag.key, value⟩ }, .tag tag⟩ ∧
      ∀ entry, first = some entry → ∃ value, entry.partition = Partition.tagValue t tag.key value := by
  have hvalue (value : String) (entry : Address) (sort : String)
      (h : (tag.valueKey t sort value).first = some entry) :
      ∃ value, entry.partition = Partition.tagValue t tag.key value :=
    ⟨value, by rw [← Option.some.inj h]⟩
  obtain ⟨key, hkey, rfl⟩ := List.mem_map.1 h
  unfold rowKeys at hkey
  split at hkey
  · rw [List.mem_singleton.1 hkey]
    exact ⟨tag.key, none, _, rfl, fun _ h => nomatch h⟩
  · rename_i value _
    rw [List.mem_singleton.1 hkey]
    exact ⟨tag.key, _, value, rfl, fun entry h => hvalue value entry (SortKey.tag tag.key) h⟩
  · rename_i values _
    obtain ⟨i, hi, rfl⟩ := List.mem_mapIdx.1 hkey
    have hsort : numberedSort tag.key i =
        SortKey.tags ++ (tag.key ++ delimiter ++ Text.padded 4 i) := by
      simp only [numberedSort, SortKey.tag, String.append_assoc]
    rw [hsort]
    exact ⟨_, _, values[i], rfl, fun entry h => hvalue values[i] entry (SortKey.tag tag.key) h⟩

theorem Document.address_liveRow {t : Tenant} {d : Document} (h : d.tenant = t) :
    d.liveRow.address = ⟨Partition.document t d.id, SortKey.document⟩ := by
  subst h
  rfl

namespace Row

/-- The rows of tenant `t` that are not soft-deleted. -/
inductive IsLive (t : Tenant) : Row → Prop
  | document (d : Document) (h : d.tenant = t) : IsLive t d.liveRow
  | version (d : Document) (h : d.tenant = t) : IsLive t d.archivedRow
  | tag (tag : Tag) {row : Row} (h : row ∈ tag.rows t) : IsLive t row
  | value (a : Attribute) : IsLive t (a.row t)
  | folder (parents : List String) (name : String) (h : ∀ s ∈ parents ++ [name], Path.IsName s) :
    IsLive t ((Folder.node t parents name).row t)
  | leaf (id : String) (parents : List String) (name : String)
    (h : ∀ s ∈ parents ++ [name], Path.IsName s) : IsLive t ((Folder.leaf t id parents name).row t)

def marked (t : Tenant) (row : Row) : Row := ⟨SoftDelete.mark t row.key, row.record⟩

inductive IsDeleted (t : Tenant) : Row → Prop
  | mark {row : Row} (h : IsLive t row) : IsDeleted t (row.marked t)

def IsFiled (t : Tenant) (row : Row) : Prop := row.IsLive t ∨ row.IsDeleted t

variable {t : Tenant} {row : Row} {id p : String}

theorem IsLive.entry (h : row.IsLive t) {i : Index} {a : Address} (ha : row.key.entry i = some a) :
    Partition.IsLive t a.partition := by
  cases h with
  | document d h =>
    subst h
    cases i with
    | primary => cases ha; exact Partition.isLive_document
    | first => cases ha; exact Partition.isLive_day
    | second =>
      obtain ⟨parent, -, rfl⟩ := Option.map_eq_some_iff.1 ha
      exact Partition.isLive_children
  | version d h =>
    subst h
    cases i with
    | primary => cases ha; exact Partition.isLive_document
    | first => cases ha
    | second => cases ha
  | tag tag h =>
    obtain ⟨tail, first, value, rfl, hfirst⟩ := Tag.mem_rows h
    cases i with
    | primary => cases ha; exact Partition.isLive_document
    | first =>
      obtain ⟨value, hvalue⟩ := hfirst a ha
      exact hvalue ▸ Partition.isLive_tagValue
    | second => cases ha; exact Partition.isLive_tag
  | value a =>
    cases i with
    | primary => cases ha; exact Partition.isLive_document
    | first => cases ha; exact Partition.isLive_attributeKey
    | second => cases ha
  | folder parents name h =>
    cases i with
    | primary => cases ha; exact Partition.isLive_folderKey
    | first => cases ha
    | second => cases ha
  | leaf id parents name h =>
    cases i with
    | primary => cases ha; exact Partition.isLive_folderKey
    | first => cases ha; exact Partition.isLive_leaf
    | second => cases ha

theorem IsLive.partition (h : row.IsLive t) : Partition.IsLive t row.address.partition :=
  h.entry (i := .primary) rfl

theorem IsDeleted.entry (h : row.IsDeleted t) {i : Index} {a : Address}
    (ha : row.key.entry i = some a) : Partition.IsDeleted t a.partition := by
  obtain ⟨h⟩ := h
  cases i with
  | primary =>
    cases ha
    exact h.partition.isDeleted_markKey
  | first =>
    obtain ⟨b, hb, rfl⟩ := Option.map_eq_some_iff.1 ha
    exact (h.entry (i := .first) hb).isDeleted_markKey
  | second =>
    obtain ⟨b, hb, rfl⟩ := Option.map_eq_some_iff.1 ha
    exact (h.entry (i := .second) hb).isDeleted_markKey

theorem IsDeleted.partition (h : row.IsDeleted t) : Partition.IsDeleted t row.address.partition :=
  h.entry (i := .primary) rfl

theorem IsFiled.isLive (h : row.IsFiled t) (hp : Partition.IsLive t row.address.partition) :
    row.IsLive t :=
  h.resolve_right fun hd => hp.ne_of_isDeleted hd.partition rfl

theorem IsFiled.isLive_of_entry (h : row.IsFiled t) {i : Index} {a : Address}
    (ha : row.key.entry i = some a) (hp : Partition.IsLive t a.partition) : row.IsLive t :=
  h.resolve_right fun hd => hp.ne_of_isDeleted (hd.entry ha) rfl

theorem IsFiled.isDeleted_of_entry (h : row.IsFiled t) {i : Index} {a : Address}
    (ha : row.key.entry i = some a) (hp : Partition.IsDeleted t a.partition) : row.IsDeleted t :=
  h.resolve_left fun hl => (hl.entry ha).ne_of_isDeleted hp rfl

theorem IsLive.isMarked (h : row.IsLive t) :
    SoftDelete.isMarked t row.address.partition = false := h.partition.isMarked

theorem IsDeleted.isMarked (h : row.IsDeleted t) :
    SoftDelete.isMarked t row.address.partition = true := h.partition.isMarked

theorem IsLive.documentId?_of_partition (h : row.IsLive t)
    (hp : row.address.partition = Partition.document t id) :
    row.documentId? = some id ∧ row.folderNode? = none := by
  cases h with
  | document d h =>
    subst h
    exact ⟨congrArg some (Partition.document_injective hp), rfl⟩
  | version d h =>
    subst h
    exact ⟨congrArg some (Partition.document_injective hp), rfl⟩
  | tag tag h =>
    obtain ⟨tail, first, value, rfl, -⟩ := Tag.mem_rows h
    exact ⟨congrArg some (Partition.document_injective hp), rfl⟩
  | value a => exact ⟨congrArg some (Partition.document_injective hp), rfl⟩
  | folder parents name h => exact absurd hp.symm Partition.document_ne_folderKey
  | leaf _ parents name h => exact absurd hp.symm Partition.document_ne_folderKey

theorem IsLive.of_documentId? (h : row.IsLive t) (hid : row.documentId? = some id) :
    row.address.partition = Partition.document t id ∨
      ∃ parents name, (∀ s ∈ parents ++ [name], Path.IsName s) ∧
        row = (Folder.leaf t id parents name).row t := by
  cases h with
  | document d h =>
    subst h
    cases hid
    exact .inl rfl
  | version d h =>
    subst h
    cases hid
    exact .inl rfl
  | tag tag h =>
    obtain ⟨tail, first, value, rfl, -⟩ := Tag.mem_rows h
    cases hid
    exact .inl rfl
  | value a =>
    cases hid
    exact .inl rfl
  | folder parents name h => cases hid
  | leaf _ parents name h =>
    cases hid
    exact .inr ⟨parents, name, h, rfl⟩

theorem IsLive.eq_liveRow (h : row.IsLive t)
    (ha : row.address = ⟨Partition.document t id, SortKey.document⟩) :
    ∃ d : Document, d.tenant = t ∧ d.id = id ∧ row = d.liveRow := by
  obtain ⟨hp, hs⟩ := Address.mk.inj ha
  cases h with
  | document d h =>
    subst h
    exact ⟨d, rfl, Partition.document_injective hp, rfl⟩
  | version d h => exact absurd hs.symm (SortKey.document_ne_version d.currentVersion)
  | tag tag h =>
    obtain ⟨tail, first, value, rfl, -⟩ := Tag.mem_rows h
    refine absurd hs.symm ?_
    rw [← String.append_empty (s := SortKey.document)]
    exact Text.append_ne_append (by decide) (by decide) _ _
  | value a =>
    refine absurd hs.symm ?_
    rw [← String.append_empty (s := SortKey.document)]
    show SortKey.document ++ "" ≠ SortKey.attributes ++ a.key ++ delimiter ++ a.value.indexText
    rw [String.append_assoc, String.append_assoc]
    exact Text.append_ne_append (by decide) (by decide) _ _
  | folder parents name h => exact absurd hp.symm Partition.document_ne_folderKey
  | leaf _ parents name h => exact absurd hp.symm Partition.document_ne_folderKey

theorem IsLive.eq_attributeRow (h : row.IsLive t) {a : Attribute} (ha : row.attribute? = some a) :
    row = a.row t := by
  cases h with
  | tag tag h =>
    obtain ⟨tail, first, value, rfl, -⟩ := Tag.mem_rows h
    cases ha
  | value b =>
    obtain rfl : b = a := Option.some.inj ha
    rfl
  | document | version | folder | leaf => cases ha

theorem IsLive.exists_attributeRow (h : row.IsLive t) {a : Attribute}
    (ha : row.address = (a.row t).address) :
    ∃ b : Attribute, row = b.row t ∧ b.documentId = a.documentId := by
  obtain ⟨hp, hs⟩ := Address.mk.inj ha
  have hfront : (a.row t).address.sort =
      SortKey.attributes ++ (a.key ++ delimiter ++ a.value.indexText) := by
    simp only [Attribute.row, Row.address, Attribute.rowKey, SortKey.attributeKey,
      String.append_assoc]
  have apart (front tail : String) (hfrom : Text.beginsWith front SortKey.attributes = false)
      (hto : Text.beginsWith SortKey.attributes front = false)
      (hsort : row.address.sort = front ++ tail) : False :=
    Text.append_ne_append hfrom hto _ _ (hsort.symm.trans (hs.trans hfront))
  cases h with
  | document d h =>
    exact (apart SortKey.document "" (by decide) (by decide) String.append_empty.symm).elim
  | version d h => exact (apart SortKey.versionFront _ (by decide) (by decide) rfl).elim
  | tag tag h =>
    obtain ⟨tail, first, value, rfl, -⟩ := Tag.mem_rows h
    exact (apart SortKey.tags tail (by decide) (by decide) rfl).elim
  | value b => exact ⟨b, rfl, Partition.document_injective hp⟩
  | folder parents name h => exact absurd hp.symm Partition.document_ne_folderKey
  | leaf _ parents name h => exact absurd hp.symm Partition.document_ne_folderKey

theorem IsLive.isSome_document?_iff (h : row.IsLive t)
    (hp : row.address.partition = Partition.document t id) :
    row.document?.isSome ↔ Text.beginsWith SortKey.document row.address.sort := by
  have apart {front tail : String} (hfront : Text.beginsWith front SortKey.document = false)
      (hback : Text.beginsWith SortKey.document front = false) :
      ¬Text.beginsWith SortKey.document (front ++ tail) = true := by
    intro hbegins
    obtain ⟨rest, hrest⟩ := Text.beginsWith_iff.1 hbegins
    exact Text.append_ne_append hfront hback tail rest hrest
  cases h with
  | document d h => exact iff_of_true rfl (Text.beginsWith_iff.2 ⟨"", String.append_empty.symm⟩)
  | version d h =>
    have hfront : SortKey.versionFront = SortKey.document ++ "#v" := by decide
    have hsort : d.archivedRow.address.sort =
        SortKey.document ++ ("#v" ++ Text.decimal d.currentVersion.toNat) := by
      rw [← String.append_assoc, ← hfront]
      rfl
    exact iff_of_true rfl (Text.beginsWith_iff.2 ⟨_, hsort⟩)
  | tag tag h =>
    obtain ⟨tail, first, value, rfl, -⟩ := Tag.mem_rows h
    exact iff_of_false nofun (apart (by decide) (by decide))
  | value a =>
    have hsort : (a.row t).address.sort =
        SortKey.attributes ++ (a.key ++ delimiter ++ a.value.indexText) := by
      rw [← String.append_assoc, ← String.append_assoc]
      rfl
    rw [hsort]
    exact iff_of_false nofun (apart (by decide) (by decide))
  | folder parents name h => exact absurd hp.symm Partition.document_ne_folderKey
  | leaf _ parents name h => exact absurd hp.symm Partition.document_ne_folderKey

theorem IsLive.eq_leaf (h : row.IsLive t) {s : String}
    (hfirst : row.key.first = some ⟨Partition.leaf t id, s⟩) :
    ∃ parents name, (∀ s ∈ parents ++ [name], Path.IsName s) ∧
      row = (Folder.leaf t id parents name).row t := by
  cases h with
  | document d h =>
    subst h
    exact absurd (Address.mk.inj (Option.some.inj hfirst)).1 Partition.day_ne_leaf
  | version d h => cases hfirst
  | tag tag h =>
    obtain ⟨tail, first, value, rfl, hvalue⟩ := Tag.mem_rows h
    obtain ⟨value, hvalue⟩ := hvalue _ hfirst
    exact absurd hvalue.symm Partition.tagValue_ne_leaf
  | value a =>
    exact absurd (Address.mk.inj (Option.some.inj hfirst)).1 Partition.attributeKey_ne_leaf
  | folder parents name h => cases hfirst
  | leaf id' parents name h =>
    have := Partition.leaf_injective (Address.mk.inj (Option.some.inj hfirst)).1
    subst this
    exact ⟨parents, name, h, rfl⟩

theorem IsLive.eq_value (h : row.IsLive t) {key text : String}
    (hfirst : row.key.first = some ⟨Partition.attributeKey t key, text⟩) :
    ∃ a : Attribute, row = a.row t ∧ a.key = key ∧ a.value.indexText = text := by
  cases h with
  | document d h =>
    subst h
    exact absurd (Address.mk.inj (Option.some.inj hfirst)).1 Partition.attributeKey_ne_day.symm
  | version d h => cases hfirst
  | tag tag h =>
    obtain ⟨tail, first, value, rfl, hvalue⟩ := Tag.mem_rows h
    obtain ⟨value, hvalue⟩ := hvalue _ hfirst
    exact absurd hvalue.symm Partition.tagValue_ne_attributeKey
  | value a =>
    obtain ⟨hkey, htext⟩ := Address.mk.inj (Option.some.inj hfirst)
    exact ⟨a, rfl, Partition.attributeKey_injective hkey, htext⟩
  | folder parents name h => cases hfirst
  | leaf _ parents name h =>
    exact absurd (Address.mk.inj (Option.some.inj hfirst)).1 Partition.attributeKey_ne_leaf.symm

theorem IsLive.eq_child (h : row.IsLive t) {s : String}
    (hsecond : row.key.second = some ⟨Partition.children t p, s⟩) :
    ∃ d : Document, d.tenant = t ∧ d.parent = some p ∧ row = d.liveRow := by
  cases h with
  | document d h =>
    subst h
    obtain ⟨parent, hparent, he⟩ := Option.map_eq_some_iff.1 hsecond
    rw [Partition.children_injective (Address.mk.inj he).1] at hparent
    exact ⟨d, rfl, hparent, rfl⟩
  | version d h => cases hsecond
  | tag tag h =>
    obtain ⟨tail, first, value, rfl, -⟩ := Tag.mem_rows h
    exact absurd (Address.mk.inj (Option.some.inj hsecond)).1 Partition.tag_ne_children
  | value a => cases hsecond
  | folder parents name h => cases hsecond
  | leaf _ parents name h => cases hsecond

theorem IsLive.place (h : row.IsLive t) :
    (∃ id, row.address.partition = Partition.document t id) ∨
      (∃ parents name, (∀ s ∈ parents ++ [name], Path.IsName s) ∧
        row = (Folder.node t parents name).row t) ∨
      ∃ id parents name, (∀ s ∈ parents ++ [name], Path.IsName s) ∧
        row = (Folder.leaf t id parents name).row t := by
  cases h with
  | document d h =>
    subst h
    exact .inl ⟨d.id, rfl⟩
  | version d h =>
    subst h
    exact .inl ⟨d.id, rfl⟩
  | tag tag h =>
    obtain ⟨tail, first, value, rfl, -⟩ := Tag.mem_rows h
    exact .inl ⟨tag.documentId, rfl⟩
  | value a => exact .inl ⟨a.documentId, rfl⟩
  | folder parents name h => exact .inr (.inl ⟨parents, name, h, rfl⟩)
  | leaf id parents name h => exact .inr (.inr ⟨id, parents, name, h, rfl⟩)

theorem IsLive.eq_node_or_leaf (h : row.IsLive t) {path : String}
    (hp : row.address.partition = Path.folderKey t path) :
    ∃ name, (∀ s ∈ Path.segments path ++ [name], Path.IsName s) ∧
      (row = (Folder.node t (Path.segments path) name).row t ∨
        ∃ id, row = (Folder.leaf t id (Path.segments path) name).row t) := by
  have hsame {parents : List String} {name : String}
      (hnames : ∀ s ∈ parents ++ [name], Path.IsName s)
      (hp : Path.folderKey t (Path.join parents) = Path.folderKey t path) :
      parents = Path.segments path := by
    rw [← Path.folderKey_join_segments path] at hp
    exact Path.folderKey_join_injective (fun s hs => hnames s (List.mem_append_left _ hs))
      (fun s hs => Path.isName_of_mem_segments hs) hp
  rcases h.place with ⟨id, hid⟩ | ⟨parents, name, hnames, rfl⟩ | ⟨id, parents, name, hnames, rfl⟩
  · exact absurd (hid.symm.trans hp) Partition.document_ne_folderKey
  · obtain rfl := hsame hnames hp
    exact ⟨name, hnames, .inl rfl⟩
  · obtain rfl := hsame hnames hp
    exact ⟨name, hnames, .inr ⟨id, rfl⟩⟩

theorem IsLive.eq_folder (h : row.IsLive t) {parents : List String} {name : String}
    (hnames : ∀ s ∈ parents ++ [name], Path.IsName s)
    (ha : row.address = ((Folder.node t parents name).row t).address) :
    row = (Folder.node t parents name).row t := by
  have hs : row.address.sort = SortKey.folder name := congrArg Address.sort ha
  obtain ⟨name', -, hrow⟩ := h.eq_node_or_leaf (congrArg Address.partition ha)
  rw [Path.segments_join fun s hs => hnames s (List.mem_append_left _ hs)] at hrow
  rcases hrow with rfl | ⟨id, rfl⟩
  · have hfront : "ff#" ++ name' = "ff#" ++ name := hs
    rw [String.append_right_inj] at hfront
    rw [hfront]
  · have hfront : "fi#" ++ (name' ++ delimiter ++ id) = "ff#" ++ name := by
      rw [← String.append_assoc, ← String.append_assoc]
      exact hs
    exact absurd hfront (Text.append_ne_append (by decide) (by decide) _ _)

theorem address_marked (t : Tenant) (row : Row) :
    (row.marked t).address = row.address.marked t := rfl

theorem IsLive.address_ne_marked {r : Row} (h : row.IsLive t) (h' : r.IsLive t) :
    row.address ≠ r.address.marked t := by
  intro ha
  have hdeleted := h'.partition.isDeleted_markKey
  exact h.partition.ne_of_isDeleted hdeleted (congrArg Address.partition ha)

theorem IsLive.ne_marked {r : Row} (h : row.IsLive t) (h' : r.IsLive t) : row ≠ r.marked t := by
  intro he
  have hne := h.address_ne_marked h'
  exact hne (congrArg Row.address he)

theorem documentId?_marked (t : Tenant) (row : Row) :
    (row.marked t).documentId? = row.documentId? := rfl

theorem entry_marked (t : Tenant) (row : Row) {i : Index} (hi : i ≠ .primary) :
    (row.marked t).key.entry i = (row.key.entry i).map (SoftDelete.markEntry t) := by
  cases i with
  | primary => exact absurd rfl hi
  | first => rfl
  | second => rfl

theorem IsLive.isHeldBy (h : row.IsLive t) : row.key.IsHeldBy t :=
  fun _ _ ha => (h.entry ha).holds

theorem IsLive.unmark_mark (h : row.IsLive t) :
    SoftDelete.unmark t (SoftDelete.mark t row.key) = .ok row.key :=
  SoftDelete.unmark_mark h.isHeldBy

theorem IsLive.marked_injective {r : Row} (h : row.IsLive t) (h' : r.IsLive t)
    (he : row.marked t = r.marked t) : row = r := by
  obtain ⟨hmark, hrecord⟩ := Row.mk.inj he
  have hkey := SoftDelete.mark_injOn t h.isHeldBy h'.isHeldBy hmark
  cases row
  cases r
  simp_all

theorem IsDeleted.unmark (h : row.IsDeleted t) :
    ∃ live : Row, live.IsLive t ∧ row = live.marked t ∧
      SoftDelete.unmark t row.key = .ok live.key := by
  obtain ⟨h⟩ := h
  exact ⟨_, h, rfl, h.unmark_mark⟩

end Row

end Cabinet
