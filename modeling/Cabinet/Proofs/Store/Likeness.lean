import Cabinet.Proofs.Store.Removal

/-! Tables that a tenant cannot tell apart. Main statements: it reads the same from both, and what it
writes leaves them alike. -/

namespace Cabinet

/-- Tables with the same rows of tenant `t`, and no others that it would come across. -/
structure Table.Alike (t : Tenant) (T T' : Table) : Prop where
  rows : ∀ row, row.IsFiled t → (row ∈ T ↔ row ∈ T')
  left : T.Keeps t
  right : T'.Keeps t
  name : T.name = T'.name
  maxBatchSize : T.maxBatchSize = T'.maxBatchSize
  others : T.others = T'.others

namespace Table.Alike

variable {t : Tenant} {T T' : Table} {row : Row} {id key : String}

section Reading

variable (h : T.Alike t T')

include h

theorem mem_iff {i : Index} {a : Address} (ha : row.key.entry i = some a)
    (hp : Partition.IsOwn t a.partition) : row ∈ T ↔ row ∈ T' :=
  h.left.mem_congr h.right ha hp (h.rows row)

theorem mem_iff_of_position {q : Query} (hp : Partition.IsOwn t q.partition)
    (hposition : (q.position? row).isSome) : row ∈ T ↔ row ∈ T' := by
  obtain ⟨a, ha, hpartition, -⟩ := isSome_position?.1 hposition
  exact h.mem_iff ha (hpartition ▸ hp)

theorem get? {a : Address} (hp : Partition.IsOwn t a.partition) : T.get? a = T'.get? a := by
  apply Option.ext
  intro row
  rw [get?_eq_some_iff, get?_eq_some_iff]
  apply and_congr_left
  intro ha
  subst ha
  exact h.mem_iff (i := .primary) rfl hp

theorem queryAll {q : Query} (hp : Partition.IsOwn t q.partition) :
    T.queryAll q = T'.queryAll q :=
  queryAll_congr fun _ hposition => h.mem_iff_of_position hp hposition

theorem query {q : Query} (hp : Partition.IsOwn t q.partition) : T.query q = T'.query q :=
  query_congr fun _ hposition => h.mem_iff_of_position hp hposition

theorem document? (id : String) : T.document? t id = T'.document? t id := by
  rw [Table.document?, h.get? (.inl Partition.isLive_document), Table.document?]

theorem version? (id : String) (n : UInt32) : T.version? t id n = T'.version? t id n := by
  rw [Table.version?, h.get? (.inl Partition.isLive_document), Table.version?]

theorem documentVersion? (id : String) (n : UInt32) :
    T.documentVersion? t id n = T'.documentVersion? t id n := by
  rw [Table.documentVersion?, h.document?, h.version?, Table.documentVersion?]

theorem rowsFrom (id front : String) : T.rowsFrom (Partition.document t id) front =
    T'.rowsFrom (Partition.document t id) front :=
  h.queryAll (.inl Partition.isLive_document)

theorem versions (id : String) : T.versions t id = T'.versions t id := by
  rw [Table.versions, h.rowsFrom, Table.versions]

theorem children (id : String) : T.children t id = T'.children t id := by
  rw [Table.children, h.queryAll (.inl Partition.isLive_children), Table.children]

theorem tagRows (id key : String) : T.tagRows t id key = T'.tagRows t id key := by
  rw [Table.tagRows, h.rowsFrom, Table.tagRows]

theorem attributeRows (id key : String) : T.attributeRows t id key = T'.attributeRows t id key := by
  rw [Table.attributeRows, h.rowsFrom, Table.attributeRows]

theorem compositesOf (id : String) (group : List String) :
    T.compositesOf t id group = T'.compositesOf t id group := by
  have hvalues : T.attributesOf t id = T'.attributesOf t id := by
    funext key
    rw [Table.attributesOf, h.attributeRows, Table.attributesOf]
  rw [Table.compositesOf, hvalues, Table.compositesOf]

theorem leaf? (id : String) : T.leaf? t id = T'.leaf? t id := by
  rw [Table.leaf?, leafLookup, h.queryAll (.inl Partition.isLive_leaf), Table.leaf?, leafLookup]

theorem deletedLeaf? (id : String) : T.deletedLeaf? t id = T'.deletedLeaf? t id := by
  rw [Table.deletedLeaf?, leafLookup,
    h.queryAll (.inr Partition.isLive_leaf.isDeleted_markKey), Table.deletedLeaf?, leafLookup]

theorem liveRows (id : String) : T.liveRows t id = T'.liveRows t id := by
  have hpartition : T.partitionRows (Partition.document t id) =
      T'.partitionRows (Partition.document t id) := h.queryAll (.inl Partition.isLive_document)
  rw [Table.liveRows, hpartition, h.leaf?, Table.liveRows]

theorem deletedPartitionRows (id : String) :
    T.deletedPartitionRows t id = T'.deletedPartitionRows t id :=
  h.queryAll (.inr Partition.isLive_document.isDeleted_markKey)

theorem deletedRows (id : String) : T.deletedRows t id = T'.deletedRows t id := by
  rw [Table.deletedRows, h.deletedPartitionRows, h.deletedLeaf?, Table.deletedRows]

theorem deletedChildren (id : String) : T.deletedChildren t id = T'.deletedChildren t id := by
  let q : Query := { index := .second, partition := SoftDelete.markKey t (Partition.children t id) }
  have hquery : T.queryAll q = T'.queryAll q :=
    h.queryAll (.inr Partition.isLive_children.isDeleted_markKey)
  unfold Table.deletedChildren
  simp only [h.deletedPartitionRows]
  rw [hquery]

theorem deletedDocuments (id : String) : T.deletedDocuments t id = T'.deletedDocuments t id := by
  rw [Table.deletedDocuments, h.deletedPartitionRows, Table.deletedDocuments]

/-- The search for a family may visit as many documents as the table has rows, whosever they are;
it finds the same when there are more. -/
theorem family (id : String) : T.family t id = T'.family t id := by
  have hnext : (fun id => (T.children t id).map Document.id) =
      fun id => (T'.children t id).map Document.id := by
    funext id
    rw [h.children]
  have hsubset := childIds_subset h.left
  rw [Table.family, Table.family, hnext]
  rw [funext_iff] at hnext
  simp only [hnext] at hsubset
  exact reachable_eq hsubset (childIds_subset h.right) T.card_owners_le T'.card_owners_le id

theorem deletedFamily (id : String) : T.deletedFamily t id = T'.deletedFamily t id := by
  have hnext : T.deletedChildren t = T'.deletedChildren t := funext h.deletedChildren
  have hsubset := deletedChildren_subset h.left
  rw [hnext] at hsubset
  rw [Table.deletedFamily, Table.deletedFamily, hnext]
  exact reachable_eq hsubset (deletedChildren_subset h.right) T.card_owners_le T'.card_owners_le id

theorem restorable (id : String) : T.restorable t id = T'.restorable t id := by
  have hrows : T.deletedRows t = T'.deletedRows t := funext h.deletedRows
  rw [Table.restorable, h.deletedFamily, hrows, Table.restorable]

theorem restorableDocuments (id : String) :
    T.restorableDocuments t id = T'.restorableDocuments t id := by
  have hdocuments : T.deletedDocuments t = T'.deletedDocuments t := funext h.deletedDocuments
  rw [Table.restorableDocuments, h.deletedFamily, hdocuments, Table.restorableDocuments]

theorem saveFault? (d : Document) : T.saveFault? t d = T'.saveFault? t d := by
  have hdocument : T.document? t = T'.document? t := funext h.document?
  rw [Table.saveFault?, hdocument, Table.saveFault?]

theorem metadataFault? (id : String) (issues : List Issue) :
    T.metadataFault? t id issues = T'.metadataFault? t id issues := by
  rw [Table.metadataFault?, h.document?, Table.metadataFault?]

theorem successor (d : Document) : T.successor t d = T'.successor t d := by
  rw [Table.successor, h.document?, Table.successor]

theorem emptyFolder (path : String) : T.emptyFolder t path = T'.emptyFolder t path := by
  have hget (path sort : String) : T.get? ⟨Path.folderKey t path, sort⟩ =
      T'.get? ⟨Path.folderKey t path, sort⟩ := h.get? (.inl Partition.isLive_folderKey)
  have hquery : T.query { index := .primary, partition := Path.folderKey t path, limit := 1 } =
      T'.query { index := .primary, partition := Path.folderKey t path, limit := 1 } :=
    h.query (.inl Partition.isLive_folderKey)
  unfold Table.emptyFolder
  simp only [hget, hquery]

theorem lookUp (c : Config) (ids : List String) :
    (T.lookUp c t ids).1 = (T'.lookUp c t ids).1 := by
  have hread : (Batch.read c.batchSize (BatchRequest.extend {} c.documentsTable (ids.map fun id =>
        (⟨Partition.document t id, SortKey.document⟩ : Address))) T).1 =
      (Batch.read c.batchSize (BatchRequest.extend {} c.documentsTable (ids.map fun id =>
        (⟨Partition.document t id, SortKey.document⟩ : Address))) T').1 := by
    refine Batch.read_congr h.maxBatchSize fun name a ha => ?_
    unfold Table.collection
    rw [h.name, h.others]
    split
    · simp only [BatchRequest.extend, List.nil_append, List.map_map, List.mem_map] at ha
      obtain ⟨id, -, he⟩ := ha
      obtain ⟨-, rfl⟩ := Prod.mk.inj he
      exact h.get? (.inl Partition.isLive_document)
    · rfl
  unfold Table.lookUp
  simp only [hread]

end Reading

section Writing

theorem counted (h : T.Alike t T') (n n' : Nat) :
    Table.Alike t { T with batchCalls := n } { T' with batchCalls := n' } where
  rows := h.rows
  left := h.left
  right := h.right
  name := h.name
  maxBatchSize := h.maxBatchSize
  others := h.others

theorem put (h : T.Alike t T') (hrow : row.IsFiled t) : (T.put row).Alike t (T'.put row) where
  rows r hr := by rw [mem_put, mem_put, h.rows r hr]
  left := h.left.of_edits (fun _ hr => hr) (Edits.put hrow)
  right := h.right.of_edits (fun _ hr => hr) (Edits.put hrow)
  name := h.name
  maxBatchSize := h.maxBatchSize
  others := h.others

theorem erase (h : T.Alike t T') (a : Address) : (T.erase a).Alike t (T'.erase a) where
  rows r hr := by rw [mem_erase, mem_erase, h.rows r hr]
  left r hr := h.left r (mem_erase.1 hr).1
  right r hr := h.right r (mem_erase.1 hr).1
  name := h.name
  maxBatchSize := h.maxBatchSize
  others := h.others

theorem foldl {α : Type} {step : Table → α → Table} {as : List α}
    (hstep : ∀ a ∈ as, ∀ T T' : Table, T.Alike t T' → (step T a).Alike t (step T' a))
    (h : T.Alike t T') : (as.foldl step T).Alike t (as.foldl step T') := by
  induction as generalizing T T' with
  | nil => exact h
  | cons a as ih =>
    have hfirst := hstep a List.mem_cons_self T T' h
    exact ih (fun b hb => hstep b (List.mem_cons_of_mem a hb)) hfirst

theorem putAll (h : T.Alike t T') {rows : List Row} (hrows : ∀ row ∈ rows, row.IsFiled t) :
    (T.putAll rows).Alike t (T'.putAll rows) :=
  foldl (fun row hrow _ _ h => h.put (hrows row hrow)) h

theorem eraseAll (h : T.Alike t T') (rows : List Row) :
    (T.eraseAll rows).Alike t (T'.eraseAll rows) :=
  foldl (fun row _ _ _ h => h.erase row.address) h

theorem move (h : T.Alike t T') {moves : List (Address × Row)}
    (hmoves : ∀ m ∈ moves, m.2.IsFiled t) : (T.move moves).Alike t (T'.move moves) :=
  foldl (fun m hm _ _ h => (h.put (hmoves m hm)).erase m.1) h

theorem indexPath (h : T.Alike t T') (id : String) (path : Option String) :
    (T.indexPath t id path).Alike t (T'.indexPath t id path) :=
  h.putAll fun _ hrow => .inl (Row.isNode_of_mem_rowsOfPath hrow).1

theorem indexPaths (h : T.Alike t T') (documents : List Document) :
    (T.indexPaths t documents).Alike t (T'.indexPaths t documents) :=
  foldl (fun d _ _ _ h => h.indexPath d.id d.path) h

theorem cleared (h : T.Alike t T') (d : Document) : (T.cleared t d).Alike t (T'.cleared t d) := by
  rw [cleared_eq, cleared_eq, droppedLeaf?, droppedLeaf?, h.document?]
  refine (h.putAll fun row hrow => ?_).eraseAll _
  exact .inl (isRecordOf_archived h.right (Option.mem_toList.1 hrow)).1

theorem saved (h : T.Alike t T') (d : Document) : (T.saved t d).Alike t (T'.saved t d) := by
  unfold Table.saved
  rw [h.successor]
  exact ((h.cleared d).indexPath d.id d.path).put (.inl (.document _ (T'.successor_tenant t d)))

theorem setTags (h : T.Alike t T') (id : String) (tags : List Tag) :
    (T.setTags t id tags).Alike t (T'.setTags t id tags) := by
  refine foldl (fun tag _ T T' h => ?_) h
  unfold setTag
  rw [h.tagRows]
  exact (h.eraseAll _).putAll fun row hrow => .inl (.tag _ hrow)

theorem putAttributes (h : T.Alike t T') (attributes : List Attribute) :
    (T.putAll (attributes.map (·.row t))).Alike t (T'.putAll (attributes.map (·.row t))) := by
  apply h.putAll
  intro row hrow
  obtain ⟨a, -, rfl⟩ := List.mem_map.1 hrow
  exact .inl (.value a)

theorem setAttributes (h : T.Alike t T') (id : String) (attributes : List Attribute) :
    (T.setAttributes t id attributes).Alike t (T'.setAttributes t id attributes) := by
  refine foldl (fun key _ T T' h => ?_) h
  unfold setAttribute
  rw [h.attributeRows]
  exact (h.eraseAll _).putAttributes _

theorem refreshComposites (h : T.Alike t T') (c : Config) (id : String) (keys : List String) :
    (T.refreshComposites c t id keys).Alike t (T'.refreshComposites c t id keys) := by
  refine foldl (fun group _ T T' h => ?_) h
  unfold refreshGroup
  have herase := h.eraseAll (T'.attributeRows t id (Attribute.compositeName group))
  rw [h.attributeRows]
  simp only
  rw [herase.compositesOf]
  exact herase.putAttributes _

theorem attributesSet (h : T.Alike t T') (c : Config) (id : String) (attributes : List Attribute) :
    (T.attributesSet c t id attributes).Alike t (T'.attributesSet c t id attributes) :=
  (h.setAttributes id _).refreshComposites c id _

theorem attributeDeleted (h : T.Alike t T') (c : Config) (id key : String) :
    (T.attributeDeleted c t id key).Alike t (T'.attributeDeleted c t id key) := by
  unfold Table.attributeDeleted
  rw [h.attributeRows]
  simp only
  split
  · exact (h.eraseAll _).refreshComposites c id [key]
  · exact h.eraseAll _

theorem remove (h : T.Alike t T') (soft : Bool) (ids : List String) :
    (T.remove t soft ids).Alike t (T'.remove t soft ids) := by
  refine foldl (fun id _ T T' h => ?_) h
  rw [h.liveRows]
  split
  · have hlive : ∀ row ∈ T'.liveRows t id, row.IsLive t := fun row hrow =>
      (mem_liveRows h.right hrow).2.1
    rw [softDelete_eq hlive, softDelete_eq hlive]
    apply h.move
    intro m hm
    obtain ⟨row, hrow, rfl⟩ := List.mem_map.1 hm
    exact .inr (.mark (hlive row hrow))
  · exact h.eraseAll _

theorem effect (h : T.Alike t T') (c : Config) (op : Operation) :
    (op.effect c t T).Alike t (op.effect c t T') := by
  cases op with
  | saveDocument d =>
    simp only [Operation.effect, h.saveFault?]
    split
    · exact h
    · exact h.saved d
  | deleteDocument id soft =>
    simp only [Operation.effect, h.document?, h.family]
    split
    · exact h
    · exact h.remove soft _
  | restoreDocument id =>
    obtain ⟨lives, hrestores, hmoves⟩ := exists_restores h.right id
    simp only [Operation.effect, h.document?, h.restorable, h.restorableDocuments, hmoves]
    split
    · exact h
    · refine (h.move fun m hm => ?_).indexPaths _
      obtain ⟨live, hlive, rfl⟩ := List.mem_map.1 hm
      exact .inl (hrestores.isLive live hlive)
  | addTags id tags =>
    simp only [Operation.effect, h.metadataFault?]
    split
    · exact h
    · exact h.setTags id tags
  | deleteTag id key =>
    simp only [Operation.effect, h.tagRows]
    exact h.eraseAll _
  | setAttributes id attributes =>
    simp only [Operation.effect, h.metadataFault?]
    split
    · exact h
    · exact h.attributesSet c id attributes
  | deleteAttribute id key => exact h.attributeDeleted c id key
  | deleteEmptyFolder path =>
    simp only [Operation.effect, h.emptyFolder]
    split
    · exact h.erase _
    · exact h
  | findDocument | findDocuments | findDocumentVersion | listDocumentVersions | findChildDocuments
  | listDocumentsByDate | listDeletedDocuments | findTags | findTag | searchTags | findAttributes
  | findAttribute | search | listFolder | folderOfDocument => exact h

end Writing

end Table.Alike

end Cabinet
