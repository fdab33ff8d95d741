import Cabinet.Proofs.Store.Soundness

/-! Tables without soft deletion, in which folders agree with documents. Main statement: without
soft deletions, restores and removed folders, every leaf is of a live document, and every live
document has all rows of its path. -/

namespace Cabinet

namespace Row

/-- A row of the folder tree, of a document without the sign that stands before ids. -/
def IsPlainNode (t : Tenant) (row : Row) : Prop :=
  row.IsNode t ∧ ∀ id ∈ row.documentId?, '#' ∉ id.toList

variable {t : Tenant} {row r : Row} {id : String}

theorem documentId?_of_mem_rowsOfPath {path : Option String} (h : row ∈ Folder.rowsOfPath t id path) :
    ∀ m ∈ row.documentId?, m = id := by
  intro m hm
  cases path with
  | none => cases h
  | some path =>
    obtain ⟨parents, name, -, rfl | ⟨rfl, -⟩⟩ := Folder.mem_rowsOfPath h
    · cases hm
    · exact (Option.some.inj hm).symm

theorem isPlainNode_of_mem_rowsOfPath {path : Option String} (hid : '#' ∉ id.toList)
    (h : row ∈ Folder.rowsOfPath t id path) : row.IsPlainNode t := by
  refine ⟨isNode_of_mem_rowsOfPath h, fun m hm => ?_⟩
  rw [documentId?_of_mem_rowsOfPath h m hm]
  exact hid

theorem leafRow?_of_isLeaf {path : Option String} (h : row ∈ Folder.rowsOfPath t id path)
    (hleaf : row.isLeaf) : path.bind (Folder.leafRow? t id) = some row := by
  cases path with
  | none => cases h
  | some path =>
    obtain ⟨parents, name, -, rfl | ⟨rfl, hrow⟩⟩ := Folder.mem_rowsOfPath h
    · cases hleaf
    · exact hrow

theorem mem_rowsOfPath_of_leafRow? {path : Option String}
    (h : path.bind (Folder.leafRow? t id) = some row) : row ∈ Folder.rowsOfPath t id path := by
  obtain ⟨path, rfl, hrow⟩ := Option.bind_eq_some_iff.1 h
  exact Folder.leafRow?_mem_rowsOfPath hrow

theorem documentId?_leafRow? {path : Option String}
    (h : path.bind (Folder.leafRow? t id) = some row) : row.documentId? = some id := by
  obtain ⟨path, -, hrow⟩ := Option.bind_eq_some_iff.1 h
  obtain ⟨parents, name, -, rfl⟩ := Folder.exists_of_leafRow? hrow
  rfl

theorem IsNode.of_isLeaf (h : row.IsLive t) (hleaf : row.isLeaf) : row.IsNode t := by
  refine ⟨h, ?_⟩
  unfold isLeaf at hleaf
  cases hnode : row.folderNode? with
  | none =>
    rw [hnode] at hleaf
    cases hleaf
  | some _ => rfl

/-- One row of the folder tree can stand at an address. -/
theorem IsPlainNode.eq_of_address_eq (h : row.IsPlainNode t) (h' : r.IsPlainNode t)
    (ha : row.address = r.address) : row = r := by
  obtain ⟨⟨hlive, hnode⟩, hplain⟩ := h
  rcases h'.1.1.place with ⟨m, hp⟩ | ⟨parents, name, hnames, rfl⟩ | ⟨m, parents, name, hnames, rfl⟩
  · exact absurd hp (h'.1.partition_ne m)
  · exact hlive.eq_folder hnames ha
  rcases hlive.place with ⟨m', hp⟩ | ⟨parents', name', hnames', rfl⟩ |
    ⟨m', parents', name', hnames', rfl⟩
  · have hpartition : Partition.document t m' = Path.folderKey t (Path.join parents) :=
      hp.symm.trans (congrArg Address.partition ha)
    exact absurd hpartition Partition.document_ne_folderKey
  · exact (h'.1.1.eq_folder hnames' ha.symm).symm
  · have hp : Path.folderKey t (Path.join parents') = Path.folderKey t (Path.join parents) :=
      congrArg Address.partition ha
    have hparents : parents' = parents :=
      Path.folderKey_join_injective (fun s hs => hnames' s (List.mem_append_left _ hs))
        (fun s hs => hnames s (List.mem_append_left _ hs)) hp
    have hs : SortKey.leaf name' ++ delimiter ++ m' = SortKey.leaf name ++ delimiter ++ m :=
      congrArg Address.sort ha
    obtain ⟨hname, hm⟩ := SortKey.leaf_injective (hplain m' rfl) (h'.2 m rfl) hs
    rw [hparents, hname, hm]

end Row

namespace Table

/-- Nothing is soft-deleted, and the folder tree is that of the live documents. -/
structure Shelved (t : Tenant) (T : Table) : Prop where
  isLive : ∀ row ∈ T, row.IsLive t
  plain : ∀ id, (T.document? t id).isSome → '#' ∉ id.toList
  leaf : ∀ row ∈ T, row.isLeaf →
    ∃ id d, T.document? t id = some d ∧ d.path.bind (Folder.leafRow? t id) = some row
  path : ∀ id d, T.document? t id = some d → ∀ row ∈ Folder.rowsOfPath t id d.path, row ∈ T

variable {t : Tenant} {T T' : Table} {row : Row} {id m : String} {d : Document}

theorem Shelved.keeps (h : T.Shelved t) : T.Keeps t := fun row hrow => .inl (.inl (h.isLive row hrow))

theorem Shelved.counted (h : T.Shelved t) (n : Nat) :
    Table.Shelved t { T with batchCalls := n } :=
  ⟨h.isLive, h.plain, h.leaf, h.path⟩

theorem Edits.mem_iff_of_isNode (he : T.Edits (Row.IsMetadataOf t id) T') (hrow : row.IsNode t) :
    row ∈ T' ↔ row ∈ T := by
  refine he.kept row fun r hr ha => hrow.partition_ne id ?_
  rw [← ha]
  exact hr.2.1

theorem Shelved.of_metadata (h : T.Shelved t) (he : T.Edits (Row.IsMetadataOf t id) T') :
    T'.Shelved t := by
  have hdocument : ∀ m, T'.document? t m = T.document? t m :=
    (he.mono fun _ hrow => hrow.isAside).document?_of_aside h.keeps
  have hlive : ∀ row ∈ T', row.IsLive t := fun row hrow =>
    (he.new row hrow).elim (h.isLive row) And.left
  refine ⟨hlive, fun m hm => ?_, fun row hrow hleaf => ?_, fun m d hd row hrow => ?_⟩
  · rw [hdocument] at hm
    exact h.plain m hm
  · have hmem : row ∈ T := (he.mem_iff_of_isNode (.of_isLeaf (hlive row hrow) hleaf)).1 hrow
    obtain ⟨m, d, hd, hpath⟩ := h.leaf row hmem hleaf
    exact ⟨m, d, (hdocument m).trans hd, hpath⟩
  · rw [hdocument] at hd
    exact (he.mem_iff_of_isNode (Row.isNode_of_mem_rowsOfPath hrow)).2 (h.path m d hd row hrow)

theorem mem_cleared (h : T.Keeps t) (hrow : row.IsNode t) :
    row ∈ T.cleared t d ↔ row ∈ T ∧ ∀ leaf ∈ T.droppedLeaf? t d, row.address ≠ leaf.address := by
  rw [cleared_eq, mem_eraseAll]
  simp only [Option.mem_toList, Option.mem_def]
  refine and_congr_left fun _ => ?_
  have hedits : T.Edits (Row.IsRecordOf t d.id)
      (T.putAll ((T.document? t d.id).map Document.archivedRow).toList) :=
    Edits.putAll (fun _ hr => isRecordOf_archived h (Option.mem_toList.1 hr)) T
  refine hedits.kept row fun r hr ha => hrow.partition_ne d.id ?_
  rw [← ha]
  exact hr.2.1

theorem mem_saved (hrow : row.IsNode t) :
    row ∈ T.saved t d ↔ row ∈ (T.cleared t d).indexPath t d.id d.path := by
  have hne : row.address ≠ (T.successor t d).liveRow.address := by
    intro ha
    refine hrow.partition_ne d.id ?_
    have hpartition : row.address.partition =
        Partition.document (T.successor t d).tenant (T.successor t d).id :=
      congrArg Address.partition ha
    rw [hpartition, successor_tenant, successor_id]
  unfold saved
  rw [mem_put]
  constructor
  · rintro (rfl | ⟨hmem, -⟩)
    · exact absurd rfl hne
    · exact hmem
  · intro hmem
    exact .inr ⟨hmem, hne⟩

/-- Rows of the folder tree after a save: those of the new path, and those that were there and are
not dropped. -/
theorem mem_saved_of_isPlainNode (h : T.Keeps t) (hid : '#' ∉ d.id.toList)
    (hrow : row.IsPlainNode t) :
    row ∈ T.saved t d ↔ (row ∈ T ∧ ∀ leaf ∈ T.droppedLeaf? t d, row.address ≠ leaf.address) ∨
      row ∈ Folder.rowsOfPath t d.id d.path := by
  have hsame : ∀ r ∈ Folder.rowsOfPath t d.id d.path, r.address = row.address → r = row :=
    fun r hr => (Row.isPlainNode_of_mem_rowsOfPath hid hr).eq_of_address_eq hrow
  rw [mem_saved hrow.1, indexPath, mem_putAll hsame, mem_cleared h hrow.1]

theorem address_ne_of_droppedLeaf? (hid : '#' ∉ d.id.toList) {leaf : Row}
    (hleaf : T.droppedLeaf? t d = some leaf) (hrow : row.IsPlainNode t)
    (hne : row.documentId? ≠ some d.id) : row.address ≠ leaf.address := by
  intro ha
  obtain ⟨live, -, hdropped⟩ := Option.bind_eq_some_iff.1 hleaf
  split at hdropped
  · cases hdropped
  · have hmem := Row.mem_rowsOfPath_of_leafRow? hdropped
    rw [hrow.eq_of_address_eq (Row.isPlainNode_of_mem_rowsOfPath hid hmem) ha] at hne
    exact hne (Row.documentId?_leafRow? hdropped)

theorem Shelved.path_saved (h : T.Shelved t) (hid : '#' ∉ d.id.toList) {e : Document}
    (he : (T.saved t d).document? t id = some e) (hrow : row ∈ Folder.rowsOfPath t id e.path) :
    row ∈ T.saved t d := by
  rw [document?_saved h.keeps] at he
  by_cases hself : id = d.id
  · subst hself
    rw [if_pos rfl] at he
    obtain rfl := Option.some.inj he
    rw [successor_path] at hrow
    have hplain := Row.isPlainNode_of_mem_rowsOfPath hid hrow
    exact (mem_saved_of_isPlainNode h.keeps hid hplain).2 (.inr hrow)
  · rw [if_neg hself] at he
    have hplain : row.IsPlainNode t :=
      Row.isPlainNode_of_mem_rowsOfPath (h.plain id (Option.isSome_of_eq_some he)) hrow
    -- a leaf that is dropped is of the saved document, so not one of these rows
    have hne : row.documentId? ≠ some d.id :=
      fun hd => hself (Row.documentId?_of_mem_rowsOfPath hrow d.id hd).symm
    refine (mem_saved_of_isPlainNode h.keeps hid hplain).2 (.inl ⟨h.path id e he row hrow, ?_⟩)
    exact fun leaf hleaf => address_ne_of_droppedLeaf? hid hleaf hplain hne

theorem Shelved.leaf_saved (h : T.Shelved t) (hrow : row ∈ T.saved t d) (hlive : row.IsLive t)
    (hleaf : row.isLeaf) : ∃ id e, (T.saved t d).document? t id = some e ∧
      e.path.bind (Folder.leafRow? t id) = some row := by
  have hnode : row.IsNode t := .of_isLeaf hlive hleaf
  have hself : (T.saved t d).document? t d.id = some (T.successor t d) := by
    rw [document?_saved h.keeps, if_pos rfl]
  rw [mem_saved hnode] at hrow
  have hindex : (T.cleared t d).Edits (· ∈ Folder.rowsOfPath t d.id d.path)
      ((T.cleared t d).indexPath t d.id d.path) := Edits.putAll (fun _ hr => hr) _
  rcases hindex.new row hrow with hcleared | hnew
  · obtain ⟨hmem, hdropped⟩ := (mem_cleared h.keeps hnode).1 hcleared
    obtain ⟨id, e, he, hpath⟩ := h.leaf row hmem hleaf
    by_cases hid : id = d.id
    · subst hid
      -- the leaf is still there, so the path has not changed
      have hsame : e.path = d.path := by
        by_contra hne
        have hdroppedLeaf : T.droppedLeaf? t d = some row := by
          unfold droppedLeaf?
          rw [he, Option.bind_some, if_neg hne, hpath]
        exact hdropped row hdroppedLeaf rfl
      refine ⟨d.id, T.successor t d, hself, ?_⟩
      rw [successor_path, ← hsame]
      exact hpath
    · refine ⟨id, e, ?_, hpath⟩
      rw [document?_saved h.keeps, if_neg hid]
      exact he
  · refine ⟨d.id, T.successor t d, hself, ?_⟩
    rw [successor_path]
    exact Row.leafRow?_of_isLeaf hnew hleaf

theorem Shelved.saved (h : T.Shelved t) (hid : '#' ∉ d.id.toList) : (T.saved t d).Shelved t := by
  have hlive : ∀ row ∈ T.saved t d, row.IsLive t := fun row hrow =>
    ((edits_saved h.keeps d).new row hrow).elim (h.isLive row) fun hr => hr.elim And.left And.left
  refine ⟨hlive, fun id hsome => ?_, fun row hrow hleaf => ?_, fun id e he row hrow => ?_⟩
  · rw [document?_saved h.keeps] at hsome
    by_cases hself : id = d.id
    · rw [hself]
      exact hid
    · rw [if_neg hself] at hsome
      exact h.plain id hsome
  · exact h.leaf_saved hrow (hlive row hrow) hleaf
  · exact h.path_saved hid he hrow

theorem isSome_leaf? {path : Option String} (hrow : row ∈ T)
    (hpath : path.bind (Folder.leafRow? t id) = some row) : (T.leaf? t id).isSome := by
  have hentry : row.key.first = some ⟨Partition.leaf t id, SortKey.leafLookup⟩ := by
    obtain ⟨path, -, hleaf⟩ := Option.bind_eq_some_iff.1 hpath
    obtain ⟨parents, name, -, rfl⟩ := Folder.exists_of_leafRow? hleaf
    rfl
  exact isSome_leafLookup hrow hentry

theorem Shelved.leafRow?_eq (h : T.Shelved t) (hd : T.document? t id = some d) (hrow : row ∈ T)
    (hleaf : row.isLeaf) (hid : row.documentId? = some id) :
    d.path.bind (Folder.leafRow? t id) = some row := by
  obtain ⟨m, e, he, hpath⟩ := h.leaf row hrow hleaf
  have hm : row.documentId? = some m := Row.documentId?_leafRow? hpath
  obtain rfl : m = id := Option.some.inj (hm.symm.trans hid)
  rw [hd] at he
  obtain rfl := Option.some.inj he
  exact hpath

theorem Shelved.leaf?_eq (h : T.Shelved t) (hd : T.document? t id = some d) :
    T.leaf? t id = d.path.bind (Folder.leafRow? t id) := by
  cases hlookup : T.leaf? t id with
  | some row =>
    obtain ⟨hrow, -, parents, name, -, rfl⟩ := leaf?_eq_some h.keeps hlookup
    exact (h.leafRow?_eq hd hrow rfl rfl).symm
  | none =>
    cases hpath : d.path.bind (Folder.leafRow? t id) with
    | none => rfl
    | some row =>
      have hrow : row ∈ T := h.path id d hd row (Row.mem_rowsOfPath_of_leafRow? hpath)
      have hsome := isSome_leaf? hrow hpath
      rw [hlookup] at hsome
      cases hsome

/-- The live rows of documents are all that belong to them. -/
theorem Shelved.mem_flatMap_liveRows_iff (h : T.Shelved t) {ids : List String} :
    row ∈ ids.flatMap (T.liveRows t) ↔ row ∈ T ∧ ∃ id ∈ ids, row.documentId? = some id := by
  rw [List.mem_flatMap]
  constructor
  · rintro ⟨id, hid, hrow⟩
    obtain ⟨hmem, -, hdocument⟩ := mem_liveRows h.keeps hrow
    exact ⟨hmem, id, hid, hdocument⟩
  · rintro ⟨hmem, id, hid, hdocument⟩
    refine ⟨id, hid, ?_⟩
    rcases (h.isLive row hmem).of_documentId? hdocument with hp | ⟨parents, name, -, rfl⟩
    · exact mem_liveRows_of_partition hmem hp
    · obtain ⟨m, d, hd, hpath⟩ := h.leaf _ hmem rfl
      obtain rfl : id = m := Option.some.inj (Row.documentId?_leafRow? hpath)
      have hleaf := h.leaf?_eq hd
      rw [hpath] at hleaf
      exact List.mem_append_right _ (Option.mem_toList.2 hleaf)

theorem Shelved.remove (h : T.Shelved t) (id : String) :
    (T.remove t false (T.family t id)).Shelved t := by
  have hnodup := nodup_family t T id
  have hmem {row : Row} : row ∈ T.remove t false (T.family t id) ↔
      row ∈ T ∧ ∀ m ∈ T.family t id, row.documentId? ≠ some m := by
    rw [remove_hard_eq h.keeps hnodup,
      mem_eraseAll_of_subset fun r hr => (areLive_liveRows h.keeps _ r hr).1]
    apply and_congr_right
    intro hrow
    rw [h.mem_flatMap_liveRows_iff]
    simp [hrow]
  have hdocument {m : String} {d : Document} :
      (T.remove t false (T.family t id)).document? t m = some d ↔
        T.document? t m = some d ∧ m ∉ T.family t id := by
    rw [document?_remove h.keeps hnodup]
    split <;> simp [*]
  refine ⟨fun row hrow => h.isLive row (hmem.1 hrow).1, fun m hm => ?_, fun row hrow hleaf => ?_,
    fun m d hd row hrow => ?_⟩
  · obtain ⟨d, hd⟩ := Option.isSome_iff_exists.1 hm
    exact h.plain m (Option.isSome_of_eq_some (hdocument.1 hd).1)
  · obtain ⟨hrow, hnot⟩ := hmem.1 hrow
    obtain ⟨m, d, hd, hpath⟩ := h.leaf row hrow hleaf
    have hid : row.documentId? = some m := Row.documentId?_leafRow? hpath
    exact ⟨m, d, hdocument.2 ⟨hd, fun hm => hnot m hm hid⟩, hpath⟩
  · obtain ⟨hd, hnot⟩ := hdocument.1 hd
    refine hmem.2 ⟨h.path m d hd row hrow, fun m' hm' hid => hnot ?_⟩
    obtain rfl : m' = m := Row.documentId?_of_mem_rowsOfPath hrow m' hid
    exact hm'

end Table

namespace Operation

/-- Neither a soft deletion nor a restore, no removal of a folder, and no saving of a document that
has the sign in its id that stands before ids. -/
def isPlain : Operation → Bool
  | saveDocument d => '#' ∉ d.id.toList
  | deleteDocument _ soft => !soft
  | restoreDocument _ | deleteEmptyFolder _ => false
  | _ => true

theorem shelved_effect {t : Tenant} {T : Table} (h : T.Shelved t) (c : Config) {op : Operation}
    (hplain : op.isPlain) : (op.effect c t T).Shelved t := by
  cases op with
  | saveDocument d =>
    have hid : '#' ∉ d.id.toList := of_decide_eq_true hplain
    simp only [effect]
    split
    · exact h
    · exact h.saved hid
  | deleteDocument id soft =>
    obtain rfl : soft = false := by simpa [isPlain] using hplain
    simp only [effect]
    split
    · exact h
    · exact h.remove id
  | restoreDocument | deleteEmptyFolder => cases hplain
  | addTags id tags =>
    simp only [effect]
    split
    · exact h
    · exact h.of_metadata (Table.edits_setTags h.keeps tags).metadata
  | deleteTag id key => exact h.of_metadata (Table.edits_eraseTagRows h.keeps).metadata
  | setAttributes id attributes =>
    simp only [effect]
    split
    · exact h
    · exact h.of_metadata (Table.edits_attributesSet h.keeps c attributes).metadata
  | deleteAttribute id key => exact h.of_metadata (Table.edits_attributeDeleted h.keeps c).metadata
  | findDocument | findDocuments | findDocumentVersion | listDocumentVersions | findChildDocuments
  | listDocumentsByDate | listDeletedDocuments | findTags | findTag | searchTags | findAttributes
  | findAttribute | search | listFolder | folderOfDocument => exact h

end Operation

namespace Store

variable {t : Tenant} {c : Config} {requests : List Request} {s : Store}

theorem shelved_fresh (t : Tenant) (name : String) (maxBatchSize : Nat) (clock : Clock) :
    (fresh name maxBatchSize clock).table.Shelved t where
  isLive row hrow := absurd hrow (not_mem_fresh name maxBatchSize clock row)
  plain _ hlive := by cases hlive
  leaf row hrow := absurd hrow (not_mem_fresh name maxBatchSize clock row)
  path _ _ hd := by cases hd

theorem shelved_run (hrequests : ∀ r ∈ requests, r.tenant = t ∧ r.operation.isPlain)
    (h : s.table.Shelved t) : (run c s requests).2.table.Shelved t := by
  refine run_induction (fun r hr T n hT => ?_) h
  obtain ⟨ht, hplain⟩ := hrequests r hr
  rw [ht]
  exact (Operation.shelved_effect hT c hplain).counted n

end Store

end Cabinet
