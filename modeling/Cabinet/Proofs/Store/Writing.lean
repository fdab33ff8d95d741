import Cabinet.Proofs.Store.Effect
import Cabinet.Proofs.Store.Reading
import Cabinet.Proofs.Table.Edits

/-! What saving, tagging and describing a document write. Main statements: saving writes rows of the
document and of the folder tree, and tags and attributes are apart from the document's record. -/

namespace Cabinet

namespace Row

def IsRecordOf (t : Tenant) (id : String) (row : Row) : Prop :=
  row.IsLive t ∧ row.address.partition = Partition.document t id ∧ row.document?.isSome

def IsMetadataOf (t : Tenant) (id : String) (row : Row) : Prop :=
  row.IsLive t ∧ row.address.partition = Partition.document t id ∧ row.document? = none

def IsMetadataOfKind (t : Tenant) (id : String) (kind : RecordKind) (row : Row) : Prop :=
  row.IsMetadataOf t id ∧ row.record.kind = kind

def isLeaf (row : Row) : Bool := row.folderNode?.any (·.kind = .leaf)

def IsNode (t : Tenant) (row : Row) : Prop := row.IsLive t ∧ row.folderNode?.isSome

variable {t : Tenant} {id : String} {row : Row}

theorem isRecordOf_liveRow (d : Document) (ht : d.tenant = t) (hid : d.id = id) :
    d.liveRow.IsRecordOf t id := by
  subst ht hid
  exact ⟨.document d rfl, rfl, rfl⟩

theorem isRecordOf_archivedRow (d : Document) (ht : d.tenant = t) (hid : d.id = id) :
    d.archivedRow.IsRecordOf t id := by
  subst ht hid
  exact ⟨.version d rfl, rfl, rfl⟩

theorem isMetadataOf_tag {tag : Tag} (hid : tag.documentId = id) (h : row ∈ tag.rows t) :
    row.IsMetadataOf t id := by
  subst hid
  obtain ⟨tail, first, value, rfl, -⟩ := Tag.mem_rows h
  exact ⟨.tag tag h, rfl, rfl⟩

theorem isMetadataOf_attribute (a : Attribute) (hid : a.documentId = id) :
    (a.row t).IsMetadataOf t id := by
  subst hid
  exact ⟨.value a, rfl, rfl⟩

theorem kind_of_mem_rows {tag : Tag} (h : row ∈ tag.rows t) : row.record.kind = .tag := by
  obtain ⟨tail, first, value, rfl, -⟩ := Tag.mem_rows h
  rfl

theorem kind_of_tag? (h : row.tag?.isSome) : row.record.kind = .tag := by
  obtain ⟨key, record⟩ := row
  cases record <;> simp_all [tag?, Record.kind]

theorem kind_of_attribute? (h : row.attribute?.isSome) : row.record.kind = .attribute := by
  obtain ⟨key, record⟩ := row
  cases record <;> simp_all [attribute?, Record.kind]

theorem isNode_of_mem_rowsOfPath {path : Option String}
    (h : row ∈ Folder.rowsOfPath t id path) : row.IsNode t := by
  cases path with
  | none => cases h
  | some path =>
    obtain ⟨parents, name, hnames, rfl | ⟨rfl, -⟩⟩ := Folder.mem_rowsOfPath h
    · exact ⟨.folder parents name hnames, rfl⟩
    · exact ⟨.leaf id parents name hnames, rfl⟩

theorem isNode_of_leafRow? {path : String} (h : Folder.leafRow? t id path = some row) :
    row.IsNode t :=
  isNode_of_mem_rowsOfPath (Folder.leafRow?_mem_rowsOfPath h)

theorem IsMetadataOf.isFiled (h : row.IsMetadataOf t id) : row.IsFiled t := .inl h.1

theorem IsRecordOf.kind (h : row.IsRecordOf t id) : row.record.kind = .document := by
  have hdocument := h.2.2
  obtain ⟨key, record⟩ := row
  cases record <;> simp_all [document?, Record.kind]

theorem IsNode.kind (h : row.IsNode t) : row.record.kind = .folderNode := by
  have hnode := h.2
  obtain ⟨key, record⟩ := row
  cases record <;> simp_all [folderNode?, Record.kind]

theorem IsNode.partition_ne (h : row.IsNode t) (id : String) :
    row.address.partition ≠ Partition.document t id := by
  intro hp
  have hnone := (h.1.documentId?_of_partition hp).2
  have hsome := h.2
  rw [hnone] at hsome
  cases hsome

/-- A live row that is no record of a document: of a tag, an attribute, a folder or a leaf. -/
def IsAside (t : Tenant) (row : Row) : Prop := row.IsLive t ∧ row.document? = none

theorem IsMetadataOf.isAside (h : row.IsMetadataOf t id) : row.IsAside t := ⟨h.1, h.2.2⟩

theorem IsNode.isAside (h : row.IsNode t) : row.IsAside t := by
  refine ⟨h.1, ?_⟩
  have hnode := h.2
  obtain ⟨key, record⟩ := row
  cases record <;> simp_all [folderNode?, document?]

theorem IsAside.address_ne (h : row.IsAside t) (id : String) :
    row.address ≠ ⟨Partition.document t id, SortKey.document⟩ := by
  intro ha
  obtain ⟨d, -, -, rfl⟩ := h.1.eq_liveRow ha
  cases h.2

end Row

namespace Table

open Edits

variable {t : Tenant} {T T' : Table} {id key path : String}

theorem Keeps.of_edits {P : Row → Prop} (h : T.Keeps t) (hP : ∀ row, P row → row.IsFiled t)
    (he : T.Edits P T') : T'.Keeps t := by
  intro row hrow
  rcases he.new row hrow with hrow | hrow
  · exact h row hrow
  · exact .inl (hP row hrow)

theorem Edits.metadata {kind : RecordKind} (he : T.Edits (Row.IsMetadataOfKind t id kind) T') :
    T.Edits (Row.IsMetadataOf t id) T' := he.mono fun _ => And.left

theorem edits_eraseTagRows (h : T.Keeps t) :
    T.Edits (Row.IsMetadataOfKind t id .tag) (T.eraseAll (T.tagRows t id key)) := by
  refine Edits.eraseAll (fun row hrow => ⟨(mem_tagRows h hrow).2, ?_⟩) T
  exact Row.kind_of_tag? (Option.isSome_of_any (List.mem_filter.1 hrow).2)

theorem edits_eraseAttributeRows (h : T.Keeps t) :
    T.Edits (Row.IsMetadataOfKind t id .attribute) (T.eraseAll (T.attributeRows t id key)) := by
  refine Edits.eraseAll (fun row hrow => ⟨(mem_attributeRows h hrow).2, ?_⟩) T
  exact Row.kind_of_attribute? (Option.isSome_of_any (List.mem_filter.1 hrow).2)

theorem edits_putAttributes {attributes : List Attribute} (h : ∀ a ∈ attributes, a.documentId = id)
    (T : Table) :
    T.Edits (Row.IsMetadataOfKind t id .attribute) (T.putAll (attributes.map (·.row t))) := by
  refine Edits.putAll (fun row hrow => ?_) T
  obtain ⟨a, ha, rfl⟩ := List.mem_map.1 hrow
  exact ⟨Row.isMetadataOf_attribute a (h a ha), rfl⟩

theorem edits_metadata_foldl {α : Type} {kind : RecordKind} {step : Table → α → Table} {as : List α}
    (h : ∀ a ∈ as, ∀ T : Table, T.Keeps t → T.Edits (Row.IsMetadataOfKind t id kind) (step T a))
    (hT : T.Keeps t) : T.Edits (Row.IsMetadataOfKind t id kind) (as.foldl step T) :=
  foldl_of_keeps h (fun _ _ hT he => hT.of_edits (fun _ hrow => hrow.1.isFiled) he) hT

theorem edits_setTags (h : T.Keeps t) (tags : List Tag) :
    T.Edits (Row.IsMetadataOfKind t id .tag) (T.setTags t id tags) := by
  refine edits_metadata_foldl (fun tag _ T hT => ?_) h
  refine (edits_eraseTagRows hT).trans (Edits.putAll (fun row hrow => ?_) _)
  exact ⟨Row.isMetadataOf_tag rfl hrow, Row.kind_of_mem_rows hrow⟩

theorem edits_setAttributes {attributes : List Attribute}
    (hid : ∀ a ∈ attributes, a.documentId = id) (h : T.Keeps t) :
    T.Edits (Row.IsMetadataOfKind t id .attribute) (T.setAttributes t id attributes) := by
  refine edits_metadata_foldl (fun key _ T hT => ?_) h
  refine (edits_eraseAttributeRows hT).trans (edits_putAttributes (fun a ha => ?_) _)
  exact hid a (List.mem_filter.1 ha).1

theorem exists_of_mem_compositesOf {group : List String} {a : Attribute}
    (h : a ∈ T.compositesOf t id group) :
    ∃ values ∈ Attribute.combinations
      (group.map fun key => (T.attributesOf t id key).map (·.value.indexText)),
      ∃ userId inserted, a = Attribute.composite id group values userId inserted := by
  unfold compositesOf at h
  simp only [List.map_map] at h
  split at h
  · cases h
  · obtain ⟨values, hvalues, rfl⟩ := List.mem_map.1 h
    exact ⟨values, hvalues, _, _, rfl⟩

theorem documentId_of_mem_compositesOf {group : List String} {a : Attribute}
    (h : a ∈ T.compositesOf t id group) : a.documentId = id := by
  obtain ⟨values, -, userId, inserted, rfl⟩ := exists_of_mem_compositesOf h
  rfl

theorem edits_refreshComposites (h : T.Keeps t) (c : Config) (keys : List String) :
    T.Edits (Row.IsMetadataOfKind t id .attribute) (T.refreshComposites c t id keys) := by
  refine edits_metadata_foldl (fun group _ T hT => ?_) h
  refine (edits_eraseAttributeRows hT).trans (edits_putAttributes (fun a ha => ?_) _)
  exact documentId_of_mem_compositesOf ha

theorem edits_attributesSet (h : T.Keeps t) (c : Config) (attributes : List Attribute) :
    T.Edits (Row.IsMetadataOfKind t id .attribute) (T.attributesSet c t id attributes) := by
  have hid : ∀ a ∈ attributes.map fun a => { a with documentId := id }, a.documentId = id := by
    intro a ha
    obtain ⟨b, -, rfl⟩ := List.mem_map.1 ha
    rfl
  have hset := edits_setAttributes hid h
  have hkeeps := h.of_edits (fun _ hrow => hrow.1.isFiled) hset
  exact hset.trans (edits_refreshComposites hkeeps c _)

theorem edits_attributeDeleted (h : T.Keeps t) (c : Config) :
    T.Edits (Row.IsMetadataOfKind t id .attribute) (T.attributeDeleted c t id key) := by
  have herase : T.Edits (Row.IsMetadataOfKind t id .attribute)
      (T.eraseAll (T.attributeRows t id key)) := edits_eraseAttributeRows h
  unfold attributeDeleted
  simp only
  split
  · have hkeeps := h.of_edits (fun _ hrow => hrow.1.isFiled) herase
    exact herase.trans (edits_refreshComposites hkeeps c _)
  · exact herase

theorem removeLeaf_eq (T : Table) (t : Tenant) (id path : String) :
    T.removeLeaf t id path = T.eraseAll (Folder.leafRow? t id path).toList := by
  unfold removeLeaf
  cases Folder.leafRow? t id path <;> rfl

def droppedLeaf? (T : Table) (t : Tenant) (d : Document) : Option Row :=
  (T.document? t d.id).bind fun live =>
    if live.path = d.path then none else live.path.bind (Folder.leafRow? t d.id)

/-- Before a save the live document is put aside, and one leaf at most is dropped. -/
theorem cleared_eq (T : Table) (t : Tenant) (d : Document) : T.cleared t d =
    (T.putAll ((T.document? t d.id).map Document.archivedRow).toList).eraseAll
      (T.droppedLeaf? t d).toList := by
  unfold cleared droppedLeaf?
  cases T.document? t d.id with
  | none => rfl
  | some live =>
    simp only [Option.map_some, Option.bind_some]
    cases live.path with
    | none =>
      simp only [Option.bind_none, ite_self]
      rfl
    | some path =>
      by_cases hmoved : some path = d.path
      · simp only [ne_eq, hmoved, not_true_eq_false, if_false, if_true]
        rfl
      · simp only [ne_eq, hmoved, not_false_eq_true, if_true, if_false, removeLeaf_eq]
        rfl

theorem isRecordOf_archived (h : T.Keeps t) {d : Document} {row : Row}
    (hrow : (T.document? t d.id).map Document.archivedRow = some row) : row.IsRecordOf t d.id := by
  obtain ⟨live, hlive, rfl⟩ := Option.map_eq_some_iff.1 hrow
  obtain ⟨-, ht, hid⟩ := (document?_eq_some_iff h).1 hlive
  exact Row.isRecordOf_archivedRow live ht hid

theorem isNode_of_droppedLeaf? {d : Document} {leaf : Row} (h : T.droppedLeaf? t d = some leaf) :
    leaf.IsNode t := by
  obtain ⟨live, -, hdropped⟩ := Option.bind_eq_some_iff.1 h
  split at hdropped
  · cases hdropped
  · obtain ⟨path, -, hleaf⟩ := Option.bind_eq_some_iff.1 hdropped
    exact Row.isNode_of_leafRow? hleaf

theorem edits_indexPath (T : Table) (t : Tenant) (id : String) (path : Option String) :
    T.Edits (Row.IsNode t) (T.indexPath t id path) :=
  Edits.putAll (fun _ => Row.isNode_of_mem_rowsOfPath) T

def pathRows (t : Tenant) (documents : List Document) : List Row :=
  documents.flatMap fun d => Folder.rowsOfPath t d.id d.path

theorem isNode_of_mem_pathRows {documents : List Document} {row : Row}
    (h : row ∈ pathRows t documents) : row.IsNode t := by
  obtain ⟨d, -, hrow⟩ := List.mem_flatMap.1 h
  exact Row.isNode_of_mem_rowsOfPath hrow

theorem indexPaths_eq (T : Table) (t : Tenant) (documents : List Document) :
    T.indexPaths t documents = T.putAll (pathRows t documents) := by
  unfold indexPaths pathRows
  induction documents generalizing T with
  | nil => rfl
  | cons d documents ih =>
    rw [List.foldl_cons, ih, List.flatMap_cons]
    exact List.foldl_append.symm

theorem edits_indexPaths (T : Table) (t : Tenant) (documents : List Document) :
    T.Edits (Row.IsNode t) (T.indexPaths t documents) := by
  rw [indexPaths_eq]
  exact Edits.putAll (fun _ => isNode_of_mem_pathRows) T

theorem successor_tenant (T : Table) (t : Tenant) (d : Document) :
    (T.successor t d).tenant = t := by
  unfold successor
  cases T.document? t d.id <;> rfl

theorem successor_id (T : Table) (t : Tenant) (d : Document) : (T.successor t d).id = d.id := by
  unfold successor
  cases T.document? t d.id <;> rfl

theorem successor_path (T : Table) (t : Tenant) (d : Document) :
    (T.successor t d).path = d.path := by
  unfold successor
  cases T.document? t d.id <;> rfl

theorem successor_parent (T : Table) (t : Tenant) (d : Document) :
    (T.successor t d).parent = d.parent := by
  unfold successor
  cases T.document? t d.id <;> rfl

theorem edits_cleared (h : T.Keeps t) (d : Document) :
    T.Edits (fun row => row.IsRecordOf t d.id ∨ row.IsNode t) (T.cleared t d) := by
  rw [cleared_eq]
  refine (Edits.putAll (fun row hrow => .inl ?_) T).trans (Edits.eraseAll (fun row hrow => .inr ?_) _)
  · exact isRecordOf_archived h (Option.mem_toList.1 hrow)
  · exact isNode_of_droppedLeaf? (Option.mem_toList.1 hrow)

theorem edits_saved (h : T.Keeps t) (d : Document) :
    T.Edits (fun row => row.IsRecordOf t d.id ∨ row.IsNode t) (T.saved t d) := by
  have hindex := (edits_indexPath (T.cleared t d) t d.id d.path).mono
    fun row (hrow : row.IsNode t) => (.inr hrow : row.IsRecordOf t d.id ∨ row.IsNode t)
  have hput := Row.isRecordOf_liveRow (T.successor t d) (T.successor_tenant t d)
    (T.successor_id t d)
  exact ((edits_cleared h d).trans hindex).trans (Edits.put (.inl hput))

theorem query_folder_eq_nil_iff :
    (T.query { index := .primary, partition := Path.folderKey t path, limit := 1 }).rows = [] ↔
      ∀ r ∈ T, r.address.partition ≠ Path.folderKey t path := by
  rw [query_rows_eq_nil_iff rfl]
  refine forall₂_congr fun r _ => ?_
  simp [Query.position?, RowKey.entry, Row.address]

/-- The row that goes stands where the folder belongs or, without a row there, where its bare name is
the sort key. -/
theorem emptyFolder_cases {a : Address} (h : T.emptyFolder t path = .ok a) :
    ∃ parents name row, Path.segments path = parents ++ [name] ∧ T.get? a = some row ∧
      (∀ r ∈ T, r.address.partition ≠ Path.folderKey t path) ∧
      (a = ((Folder.node t parents name).row t).address ∨
        a = ⟨Path.folderKey t (Path.join parents), name⟩ ∧
          T.get? ((Folder.node t parents name).row t).address = none) := by
  unfold emptyFolder at h
  split at h
  · cases h
  · rename_i parent name hsplit
    obtain ⟨parents, hsegments, rfl⟩ := Path.exists_of_split? hsplit
    simp only at h
    split at h
    · cases h
    · rename_i hheld
      have hempty := query_folder_eq_nil_iff.1 (not_not.1 hheld)
      split at h
      · rename_i hget
        cases h
        obtain ⟨row, hrow⟩ := Option.isSome_iff_exists.1 hget
        exact ⟨parents, name, row, hsegments, hrow, hempty, .inl rfl⟩
      · rename_i hnone
        split at h
        · rename_i hget
          cases h
          obtain ⟨row, hrow⟩ := Option.isSome_iff_exists.1 hget
          exact ⟨parents, name, row, hsegments, hrow, hempty, .inr ⟨rfl,
            Option.not_isSome_iff_eq_none.1 hnone⟩⟩
        · cases h

theorem emptyFolder_eq_ok {a : Address} (h : T.emptyFolder t path = .ok a) :
    ∃ parent, a.partition = Path.folderKey t parent ∧ (T.get? a).isSome := by
  obtain ⟨parents, name, row, -, hrow, -, hplace⟩ := emptyFolder_cases h
  refine ⟨Path.join parents, ?_, hrow ▸ rfl⟩
  rcases hplace with rfl | ⟨rfl, -⟩ <;> rfl

end Table

theorem Row.IsLive.isNode {t : Tenant} {row : Row} (h : row.IsLive t) {path : String}
    (hp : row.address.partition = Path.folderKey t path) : row.IsNode t := by
  refine ⟨h, ?_⟩
  cases h with
  | document d h =>
    subst h
    exact absurd hp Partition.document_ne_folderKey
  | version d h =>
    subst h
    exact absurd hp Partition.document_ne_folderKey
  | tag tag h =>
    obtain ⟨tail, first, value, rfl, -⟩ := Tag.mem_rows h
    exact absurd hp Partition.document_ne_folderKey
  | value a => exact absurd hp Partition.document_ne_folderKey
  | folder parents name h => rfl
  | leaf id parents name h => rfl

namespace Table

variable {t : Tenant} {T : Table} {path : String}

theorem edits_emptyFolder (h : T.Keeps t) {a : Address} (ha : T.emptyFolder t path = .ok a) :
    T.Edits (Row.IsNode t) (T.erase a) := by
  obtain ⟨parent, hp, hget⟩ := emptyFolder_eq_ok ha
  obtain ⟨row, hrow⟩ := Option.isSome_iff_exists.1 hget
  obtain ⟨hmem, rfl⟩ := get?_eq_some_iff.1 hrow
  have hlive : row.IsLive t := h.isLive_of_partition hmem (hp ▸ Partition.isLive_folderKey)
  exact Edits.erase (hlive.isNode hp)

end Table

end Cabinet
