import Cabinet.Proofs.Store.Restoration

/-! Leaves of the folder tree and the paths of documents. Main statement: they agree along a run
exactly when no restore brings back a leaf or covers a document of another path, and no leaf is
removed as a folder. -/

namespace Cabinet

def Document.leaf? (t : Tenant) (d : Document) : Option Row :=
  d.path.bind (Folder.leafRow? t d.id)

namespace Row

variable {t : Tenant} {row : Row} {id : String}

/-- A live leaf of a document. -/
def IsLeafOf (t : Tenant) (id : String) (row : Row) : Prop :=
  row.IsLive t ∧ row.isLeaf ∧ row.documentId? = some id

theorem IsLeafOf.isNode (h : row.IsLeafOf t id) : row.IsNode t := .of_isLeaf h.1 h.2.1

theorem IsLeafOf.isPlainNode (h : row.IsLeafOf t id) (hid : '#' ∉ id.toList) :
    row.IsPlainNode t := by
  refine ⟨h.isNode, fun m hm => ?_⟩
  obtain rfl : id = m := Option.some.inj (h.2.2.symm.trans hm)
  exact hid

theorem isLeafOf_of_leaf? {d : Document} (h : d.leaf? t = some row) : row.IsLeafOf t d.id := by
  obtain ⟨path, -, hpath⟩ := Option.bind_eq_some_iff.1 h
  have hlive := (isNode_of_leafRow? hpath).1
  obtain ⟨parents, name, -, rfl⟩ := Folder.exists_of_leafRow? hpath
  exact ⟨hlive, rfl, rfl⟩

theorem IsLive.exists_isLeafOf (h : row.IsLive t) (hleaf : row.isLeaf) :
    ∃ id, row.IsLeafOf t id := by
  rcases h.place with ⟨id, hp⟩ | ⟨parents, name, -, rfl⟩ | ⟨id, parents, name, -, rfl⟩
  · exact absurd hp ((IsNode.of_isLeaf h hleaf).partition_ne id)
  · cases hleaf
  · exact ⟨id, h, rfl, rfl⟩

end Row

namespace Table

def namedLeaf? (T : Table) (t : Tenant) (id : String) : Option Row :=
  (T.document? t id).bind (Document.leaf? t)

/-- Each live document has the leaf that its path names, and there is no other leaf. -/
def FoldersAgree (t : Tenant) (T : Table) : Prop :=
  ∀ id row, row ∈ T ∧ SoftDelete.isMarked t row.address.partition = false ∧ row.isLeaf ∧
    row.documentId? = some id ↔ T.namedLeaf? t id = some row

/-- The ids of documents lack the sign that stands before ids. -/
def Plain (T : Table) : Prop := ∀ id, T.Owns id → '#' ∉ id.toList

variable {t : Tenant} {T T' : Table} {row : Row} {id m : String} {d : Document}

theorem foldersAgree_iff (h : T.Sound t) :
    T.FoldersAgree t ↔
      ∀ id row, row ∈ T ∧ row.IsLeafOf t id ↔ T.namedLeaf? t id = some row :=
  forall₂_congr fun _ _ => iff_congr
    (and_congr_right fun hrow => and_congr_left fun _ => h.isMarked_eq_false_iff hrow) Iff.rfl

theorem namedLeaf?_eq_some_iff : T.namedLeaf? t id = some row ↔
    ∃ d, T.document? t id = some d ∧ d.leaf? t = some row := Option.bind_eq_some_iff

theorem Plain.leaf_iff (h : T.Plain) (h' : T'.Plain) (hleaf : row.IsLeafOf t id)
    (hkept : '#' ∉ id.toList → (row ∈ T' ↔ row ∈ T)) : row ∈ T' ↔ row ∈ T :=
  ⟨fun hrow => (hkept (h' id ⟨row, hrow, hleaf.2.2⟩)).1 hrow,
    fun hrow => (hkept (h id ⟨row, hrow, hleaf.2.2⟩)).2 hrow⟩

theorem FoldersAgree.congr (ha : T.FoldersAgree t) (h : T.Sound t) (h' : T'.Sound t)
    (hdocuments : ∀ id, T'.document? t id = T.document? t id)
    (hleaves : ∀ id (row : Row), row.IsLeafOf t id → (row ∈ T' ↔ row ∈ T)) : T'.FoldersAgree t := by
  rw [foldersAgree_iff h] at ha
  rw [foldersAgree_iff h']
  intro id row
  rw [and_congr_left (hleaves id row), ha, namedLeaf?, namedLeaf?, hdocuments]

theorem FoldersAgree.of_metadata (ha : T.FoldersAgree t) (h : T.Sound t) (h' : T'.Sound t)
    (he : T.Edits (Row.IsMetadataOf t id) T') : T'.FoldersAgree t := by
  refine ha.congr h h' ?_ fun m row hleaf => ?_
  · exact (he.mono fun _ hrow => hrow.isAside).document?_of_aside h.keeps
  · exact he.mem_iff_of_isNode hleaf.isNode

theorem FoldersAgree.erase_iff (ha : T.FoldersAgree t) (h : T.Sound t) {path : String}
    {a : Address} (hempty : T.emptyFolder t path = .ok a) :
    (T.erase a).FoldersAgree t ↔ ∀ row ∈ T.get? a, row.isLeaf = false := by
  have hedits := edits_emptyFolder h.keeps hempty
  have h' : (T.erase a).Sound t := h.of_nodes hedits
  have hdocuments := (hedits.mono fun _ hrow => hrow.isAside).document?_of_aside h.keeps
  constructor
  · intro ha' row hrow
    obtain ⟨hmem, rfl⟩ := get?_eq_some_iff.1 hrow
    by_contra hleaf
    rw [Bool.not_eq_false] at hleaf
    obtain ⟨parent, hp, -⟩ := emptyFolder_eq_ok hempty
    have hlive : row.IsLive t := h.keeps.isLive_of_partition hmem (hp ▸ Partition.isLive_folderKey)
    obtain ⟨m, hm⟩ := hlive.exists_isLeafOf hleaf
    have hnamed := ((foldersAgree_iff h).1 ha m row).1 ⟨hmem, hm⟩
    -- the path of the document still names the leaf
    have hafter : (T.erase row.address).namedLeaf? t m = some row := by
      rw [namedLeaf?, hdocuments]
      exact hnamed
    have hkept := (((foldersAgree_iff h').1 ha' m row).2 hafter).1
    exact (mem_erase.1 hkept).2 rfl
  · intro hleaf
    refine ha.congr h h' hdocuments fun m row hrow => ?_
    refine mem_erase.trans (and_iff_left_of_imp fun hmem haddress => ?_)
    have hget : T.get? a = some row := get?_eq_some_iff.2 ⟨hmem, haddress⟩
    have hisLeaf := hrow.2.1
    rw [hleaf row hget] at hisLeaf
    cases hisLeaf

theorem FoldersAgree.leaf?_eq (ha : T.FoldersAgree t) (h : T.Sound t) (id : String) :
    T.leaf? t id = T.namedLeaf? t id := by
  rw [foldersAgree_iff h] at ha
  cases hlookup : T.leaf? t id with
  | some row =>
    obtain ⟨hrow, hlive, parents, name, -, rfl⟩ := leaf?_eq_some h.keeps hlookup
    exact ((ha id _).1 ⟨hrow, hlive, rfl, rfl⟩).symm
  | none =>
    cases hnamed : T.namedLeaf? t id with
    | none => rfl
    | some row =>
      obtain ⟨hrow, -, -, hid⟩ := (ha id row).2 hnamed
      obtain ⟨d, hd, hpath⟩ := namedLeaf?_eq_some_iff.1 hnamed
      have hself : d.id = id := Option.some.inj ((Row.documentId?_leafRow? hpath).symm.trans hid)
      have hsome := isSome_leaf? hrow hpath
      rw [hself, hlookup] at hsome
      cases hsome

theorem FoldersAgree.removed (ha : T.FoldersAgree t) (h : T.Sound t) (id : String) (soft : Bool) :
    (T.remove t soft (T.family t id)).FoldersAgree t := by
  have hnodup := nodup_family t T id
  have hmem {row : Row} (hlive : row.IsLive t) : row ∈ T.remove t soft (T.family t id) ↔
      row ∈ T ∧ row ∉ (T.family t id).flatMap (T.liveRows t) := mem_remove_iff h.keeps hnodup hlive
  have hleaf (m : String) := ha.leaf?_eq h m
  rw [foldersAgree_iff h] at ha
  rw [foldersAgree_iff (h.remove id soft)]
  intro m row
  rw [namedLeaf?, document?_remove h.keeps hnodup]
  split
  · rename_i hm
    refine iff_of_false ?_ nofun
    rintro ⟨hrow, hisLeaf⟩
    obtain ⟨hrow, hnot⟩ := (hmem hisLeaf.1).1 hrow
    have hnamed := (ha m row).1 ⟨hrow, hisLeaf⟩
    rw [← hleaf] at hnamed
    exact hnot (List.mem_flatMap.2
      ⟨m, hm, List.mem_append_right _ (Option.mem_toList.2 hnamed)⟩)
  · rename_i hm
    refine Iff.trans ?_ (ha m row)
    refine and_congr_left fun ⟨hlive, _, hid⟩ => (hmem hlive).trans (and_iff_left fun hrow => ?_)
    obtain ⟨m', hm', hrow⟩ := List.mem_flatMap.1 hrow
    have hid' := (mem_liveRows h.keeps hrow).2.2
    obtain rfl : m' = m := Option.some.inj (hid'.symm.trans hid)
    exact hm hm'

theorem leaf_mem_saved_of_ne (h : T.Keeps t) (hd : '#' ∉ d.id.toList) (hm : m ≠ d.id)
    (hid : '#' ∉ m.toList) (hleaf : row.IsLeafOf t m) : row ∈ T.saved t d ↔ row ∈ T := by
  have hnode : row.IsPlainNode t := hleaf.isPlainNode hid
  rw [mem_saved_of_isPlainNode h hd hnode]
  constructor
  · rintro (⟨hrow, -⟩ | hpath)
    · exact hrow
    · exact absurd (Row.documentId?_of_mem_rowsOfPath hpath m hleaf.2.2) hm
  · refine fun hrow => .inl ⟨hrow, fun leaf hdropped => ?_⟩
    refine address_ne_of_droppedLeaf? hd hdropped hnode fun hself => hm ?_
    exact Option.some.inj (hleaf.2.2.symm.trans hself)

theorem FoldersAgree.leaf_saved_iff (ha : T.FoldersAgree t) (h : T.Sound t)
    (hd : '#' ∉ d.id.toList) :
    row ∈ T.saved t d ∧ row.IsLeafOf t d.id ↔ d.leaf? t = some row := by
  rw [foldersAgree_iff h] at ha
  constructor
  · rintro ⟨hrow, hleaf⟩
    rcases (mem_saved_of_isPlainNode h.keeps hd (hleaf.isPlainNode hd)).1 hrow with
      ⟨hrow, hdropped⟩ | hpath
    · obtain ⟨live, hlive, hnamed⟩ := namedLeaf?_eq_some_iff.1 ((ha d.id row).1 ⟨hrow, hleaf⟩)
      obtain ⟨-, -, hid⟩ := (document?_eq_some_iff h.keeps).1 hlive
      rw [Document.leaf?, hid] at hnamed
      -- the leaf is still there, so the path has not changed
      have hsame : live.path = d.path := by
        by_contra hne
        have hdroppedLeaf : T.droppedLeaf? t d = some row := by
          rw [droppedLeaf?, hlive, Option.bind_some, if_neg hne]
          exact hnamed
        exact hdropped row hdroppedLeaf rfl
      rw [Document.leaf?, ← hsame]
      exact hnamed
    · exact Row.leafRow?_of_isLeaf hpath hleaf.2.1
  · intro hleaf
    have hpath := Row.mem_rowsOfPath_of_leafRow? hleaf
    have hnode := Row.isPlainNode_of_mem_rowsOfPath hd hpath
    exact ⟨(mem_saved_of_isPlainNode h.keeps hd hnode).2 (.inr hpath), Row.isLeafOf_of_leaf? hleaf⟩

theorem FoldersAgree.saved (ha : T.FoldersAgree t) (h : T.Sound t) (h' : (T.saved t d).Sound t)
    (hplain : T.Plain) (hplain' : (T.saved t d).Plain) : (T.saved t d).FoldersAgree t := by
  have hself : (T.saved t d).document? t d.id = some (T.successor t d) := by
    rw [document?_saved h.keeps, if_pos rfl]
  have hd : '#' ∉ d.id.toList :=
    hplain' d.id (owns_of_document? h'.keeps (Option.isSome_of_eq_some hself))
  rw [foldersAgree_iff h']
  intro m row
  by_cases hm : m = d.id
  · subst hm
    rw [namedLeaf?, hself, Option.bind_some, Document.leaf?, successor_path, successor_id]
    exact ha.leaf_saved_iff h hd
  · rw [namedLeaf?, document?_saved h.keeps, if_neg hm]
    refine Iff.trans ?_ ((foldersAgree_iff h).1 ha m row)
    exact and_congr_left fun hleaf => hplain.leaf_iff hplain' hleaf fun hid =>
      leaf_mem_saved_of_ne h.keeps hd hm hid hleaf

/-- A soft-deleted document comes back with the leaf of its path and no other: neither is another
leaf soft-deleted with it, nor is it put in the place of a live document of another path. -/
def LeavesFit (t : Tenant) (T : Table) (e : Document) : Prop :=
  (∀ leaf ∈ T.deletedLeaf? t e.id, (e.leaf? t).map (Row.marked t) = some leaf) ∧
    ∀ leaf ∈ T.namedLeaf? t e.id, e.leaf? t = some leaf

theorem mem_restorableDocuments (h : T.Keeps t) {e : Document} :
    e ∈ T.restorableDocuments t id ↔
      e.liveRow.marked t ∈ T ∧ e.tenant = t ∧ e.id ∈ T.deletedFamily t id := by
  unfold restorableDocuments
  rw [List.mem_flatMap]
  constructor
  · rintro ⟨m, hm, he⟩
    obtain ⟨hrow, ht, rfl⟩ := (mem_deletedDocuments h).1 he
    exact ⟨hrow, ht, hm⟩
  · rintro ⟨hrow, ht, hm⟩
    exact ⟨e.id, hm, (mem_deletedDocuments h).2 ⟨hrow, ht, rfl⟩⟩

theorem Sound.exists_restorable (h : T.Sound t) (hne : T.restorable t id ≠ [])
    (hm : m ∈ T.deletedFamily t id) : ∃ e ∈ T.restorableDocuments t id, e.id = m := by
  have hrecord : T.IsDeletedDocument t m := by
    rcases ((mem_deletedFamily_iff h.keeps hne).1 hm).cases_tail with rfl | ⟨a, -, hchild⟩
    · obtain ⟨row, hrow⟩ := List.exists_mem_of_ne_nil _ (deletedPartitionRows_ne_nil h.keeps hne)
      obtain ⟨hmem, hp⟩ := mem_deletedPartitionRows.1 hrow
      exact h.deletedOwned row hmem m hp
    · obtain ⟨e, hrow, ht, -, hid⟩ := hchild
      exact ⟨e, hrow, ht, hid⟩
  obtain ⟨e, hrow, ht, rfl⟩ := hrecord
  exact ⟨e, (mem_restorableDocuments h.keeps).2 ⟨hrow, ht, hm⟩, rfl⟩

namespace Restores

variable {lives : List Row} {e : Document}

/-- The record of a member of the family is live afterwards, whatever was live before. -/
theorem document?_of_restorable (hr : T.Restores t id lives) (h : T.Keeps t)
    (he : e ∈ T.restorableDocuments t id) (documents : List Document) :
    (T.broughtBack t lives documents).document? t e.id = some e := by
  obtain ⟨hrow, ht, hm⟩ := (mem_restorableDocuments h).1 he
  have hpartition : (e.liveRow.marked t).address.partition =
      SoftDelete.markKey t (Partition.document t e.id) := by
    rw [Row.address_marked, Document.address_liveRow ht]
    rfl
  have hback : e.liveRow ∈ lives :=
    (hr.mem_lives (.document e ht)).2 ((mem_restorable_of_partition h hrow hpartition).2 hm)
  have hindex := (edits_indexPaths (T.move (backMoves t lives)) t documents).mono
    fun _ hrow => hrow.isAside
  rw [broughtBack, hindex.document?_of_aside (hr.keeps h), document?_eq_some_iff (hr.keeps h)]
  exact ⟨(hr.mem_iff h).2 (.inl hback), ht, rfl⟩

theorem document?_of_not_mem (hr : T.Restores t id lives) (h : T.Keeps t)
    (hm : m ∉ T.deletedFamily t id) (documents : List Document) :
    (T.broughtBack t lives documents).document? t m = T.document? t m := by
  have hindex := (edits_indexPaths (T.move (backMoves t lives)) t documents).mono
    fun _ hrow => hrow.isAside
  rw [broughtBack, hindex.document?_of_aside (hr.keeps h)]
  apply Option.ext
  intro d
  rw [document?_eq_some_iff (hr.keeps h), document?_eq_some_iff h]
  apply and_congr_left
  rintro ⟨ht, hid⟩
  have hapart : ∀ live ∈ lives, d.liveRow.address ≠ live.address := by
    intro live hl ha
    have hp : live.address.partition = Partition.document t m := by
      rw [← ha, Document.address_liveRow ht, hid]
    obtain ⟨m', hm', hlive⟩ := hr.family live hl
    have hown := ((hr.isLive live hl).documentId?_of_partition hp).1
    obtain rfl : m' = m := Option.some.inj (hlive.symm.trans hown)
    exact hm hm'
  rw [hr.mem_iff h]
  constructor
  · rintro (hl | ⟨hrow, -⟩)
    · exact absurd rfl (hapart d.liveRow hl)
    · exact hrow
  · intro hrow
    exact .inr ⟨hrow, not_mem_restorable h (.document d ht), hapart⟩

theorem leaf_mem_lives (hr : T.Restores t id lives) (h : T.Sound t)
    (hne : T.restorable t id ≠ []) (hnode : row.IsNode t) (hid : row.documentId? = some m) :
    row ∈ lives ↔ m ∈ T.deletedFamily t id ∧ T.deletedLeaf? t m = some (row.marked t) := by
  have hpartition : row.marked t ∉ T.deletedPartitionRows t m := by
    intro hrow
    obtain ⟨-, hp⟩ := mem_deletedPartitionRows.1 hrow
    exact hnode.partition_ne m (hnode.1.partition.markKey_injective Partition.isLive_document hp)
  rw [hr.mem_lives hnode.1, restorable, List.mem_flatMap]
  constructor
  · rintro ⟨m', hm', hrow⟩
    obtain ⟨-, live, hlive, hown, he⟩ := mem_deletedRows h.keeps hrow
    obtain rfl := hnode.1.marked_injective hlive he
    obtain rfl : m' = m := Option.some.inj (hown.symm.trans hid)
    exact ⟨hm', (mem_deletedRows_iff.1 hrow).2.resolve_left hpartition⟩
  · rintro ⟨hm, hleaf⟩
    obtain ⟨e, he, rfl⟩ := h.exists_restorable hne hm
    obtain ⟨hrecord, ht, -⟩ := (mem_restorableDocuments h.keeps).1 he
    have hrows : T.deletedPartitionRows t e.id ≠ [] := by
      refine List.ne_nil_of_mem (mem_deletedPartitionRows.2 ⟨hrecord, ?_⟩)
      rw [Row.address_marked, Document.address_liveRow ht]
      rfl
    exact ⟨e.id, hm, mem_deletedRows_iff.2 ⟨hrows, .inr hleaf⟩⟩

end Restores

theorem leaf_mem_pathRows {documents : List Document} (hleaf : row.isLeaf)
    (hid : row.documentId? = some m) :
    row ∈ pathRows t documents ↔ ∃ e ∈ documents, e.id = m ∧ e.leaf? t = some row := by
  unfold pathRows
  rw [List.mem_flatMap]
  refine exists_congr fun e => and_congr_right fun _ => ?_
  constructor
  · intro hrow
    exact ⟨(Row.documentId?_of_mem_rowsOfPath hrow m hid).symm, Row.leafRow?_of_isLeaf hrow hleaf⟩
  · rintro ⟨-, hpath⟩
    exact Row.mem_rowsOfPath_of_leafRow? hpath

/-- The leaves of a document after a restore: those that were there, the one that was soft-deleted
with it and the one that its path names. -/
theorem Restores.leaf_mem_broughtBack {lives : List Row} (hr : T.Restores t id lives)
    (h : T.Sound t) (hplain : T.Plain) (hne : T.restorable t id ≠ []) (hm : '#' ∉ m.toList)
    (hleaf : row.IsLeafOf t m) :
    row ∈ T.broughtBack t lives (T.restorableDocuments t id) ↔ row ∈ T ∨
      (m ∈ T.deletedFamily t id ∧ T.deletedLeaf? t m = some (row.marked t)) ∨
        ∃ e ∈ T.restorableDocuments t id, e.id = m ∧ e.leaf? t = some row := by
  have hsame := fun w hw => hr.eq_of_isPlainNode h.keeps hplain (w := w) (hleaf.isPlainNode hm) hw
  rw [← hr.leaf_mem_lives h hne hleaf.isNode hleaf.2.2, ← leaf_mem_pathRows hleaf.2.1 hleaf.2.2,
    ← List.mem_append, ← lastAt_or_eq_some_iff hsame, ← hr.get?_after _ hleaf.1.partition,
    get?_eq_some_iff, and_iff_left rfl]

theorem Restores.plain {lives : List Row} (hr : T.Restores t id lives) (h : T.Keeps t)
    (hplain : T.Plain) : (T.broughtBack t lives (T.restorableDocuments t id)).Plain := by
  rintro m ⟨row, hrow, hid⟩
  exact hplain m (hr.owns_of_broughtBack h hrow hid)

theorem Restores.namedLeaf?_of_restorable {lives : List Row} (hr : T.Restores t id lives)
    (h : T.Keeps t) {e : Document} (he : e ∈ T.restorableDocuments t id) :
    (T.broughtBack t lives (T.restorableDocuments t id)).namedLeaf? t e.id = e.leaf? t := by
  rw [namedLeaf?, hr.document?_of_restorable h he, Option.bind_some]

theorem FoldersAgree.leavesFit (ha : T.FoldersAgree t) (h : T.Sound t) (hplain : T.Plain)
    (hne : T.restorable t id ≠ []) {lives : List Row} (hr : T.Restores t id lives)
    (h' : (T.broughtBack t lives (T.restorableDocuments t id)).Sound t)
    (hafter : (T.broughtBack t lives (T.restorableDocuments t id)).FoldersAgree t) {e : Document}
    (he : e ∈ T.restorableDocuments t id) : T.LeavesFit t e := by
  obtain ⟨hrow, -, hm⟩ := (mem_restorableDocuments h.keeps).1 he
  have hid : '#' ∉ e.id.toList := hplain e.id ⟨_, hrow, rfl⟩
  rw [foldersAgree_iff h] at ha
  rw [foldersAgree_iff h'] at hafter
  constructor
  · intro leaf hleaf
    obtain ⟨-, parents, name, hnames, rfl⟩ := deletedLeaf?_eq_some h.keeps hleaf
    have hisLeaf : ((Folder.leaf t e.id parents name).row t).IsLeafOf t e.id :=
      ⟨.leaf e.id parents name hnames, rfl, rfl⟩
    have hback := (hr.leaf_mem_broughtBack h hplain hne hid hisLeaf).2 (.inr (.inl ⟨hm, hleaf⟩))
    rw [← hr.namedLeaf?_of_restorable h.keeps he, (hafter e.id _).1 ⟨hback, hisLeaf⟩]
    rfl
  · intro leaf hleaf
    obtain ⟨hrow, hisLeaf⟩ := (ha e.id leaf).2 hleaf
    have hkept := (hr.leaf_mem_broughtBack h hplain hne hid hisLeaf).2 (.inl hrow)
    rw [← hr.namedLeaf?_of_restorable h.keeps he]
    exact (hafter e.id leaf).1 ⟨hkept, hisLeaf⟩

theorem FoldersAgree.leaf_restored_iff (ha : T.FoldersAgree t) (h : T.Sound t) (hplain : T.Plain)
    (hne : T.restorable t id ≠ []) {lives : List Row} (hr : T.Restores t id lives) {e : Document}
    (he : e ∈ T.restorableDocuments t id) (hfit : T.LeavesFit t e) :
    row ∈ T.broughtBack t lives (T.restorableDocuments t id) ∧ row.IsLeafOf t e.id ↔
      e.leaf? t = some row := by
  obtain ⟨hrecord, -, -⟩ := (mem_restorableDocuments h.keeps).1 he
  have hid : '#' ∉ e.id.toList := hplain e.id ⟨_, hrecord, rfl⟩
  obtain ⟨hback, hcovered⟩ := hfit
  constructor
  · rintro ⟨hrow, hisLeaf⟩
    rcases (hr.leaf_mem_broughtBack h hplain hne hid hisLeaf).1 hrow with
      hrow | ⟨-, hdeleted⟩ | ⟨e', he', hsame, hleaf⟩
    · exact hcovered row (((foldersAgree_iff h).1 ha e.id row).1 ⟨hrow, hisLeaf⟩)
    · obtain ⟨leaf, hleaf, hmark⟩ := Option.map_eq_some_iff.1 (hback _ hdeleted)
      have hleafLive := (Row.isLeafOf_of_leaf? hleaf).1
      rw [hleaf, hleafLive.marked_injective hisLeaf.1 hmark]
    · -- one record of a document comes back
      have hone := hr.document?_of_restorable h.keeps he' (T.restorableDocuments t id)
      rw [hsame, hr.document?_of_restorable h.keeps he] at hone
      rw [Option.some.inj hone]
      exact hleaf
  · intro hleaf
    have hisLeaf := Row.isLeafOf_of_leaf? hleaf
    have hpath := (hr.leaf_mem_broughtBack h hplain hne hid hisLeaf).2
      (.inr (.inr ⟨e, he, rfl, hleaf⟩))
    exact ⟨hpath, hisLeaf⟩

theorem FoldersAgree.restored (ha : T.FoldersAgree t) (h : T.Sound t) (hplain : T.Plain)
    (hne : T.restorable t id ≠ []) {lives : List Row} (hr : T.Restores t id lives)
    (h' : (T.broughtBack t lives (T.restorableDocuments t id)).Sound t)
    (hfit : ∀ e ∈ T.restorableDocuments t id, T.LeavesFit t e) :
    (T.broughtBack t lives (T.restorableDocuments t id)).FoldersAgree t := by
  rw [foldersAgree_iff h']
  intro m row
  by_cases hm : m ∈ T.deletedFamily t id
  · obtain ⟨e, he, rfl⟩ := h.exists_restorable hne hm
    rw [hr.namedLeaf?_of_restorable h.keeps he]
    exact ha.leaf_restored_iff h hplain hne hr he (hfit e he)
  · rw [namedLeaf?, hr.document?_of_not_mem h.keeps hm]
    refine Iff.trans ?_ ((foldersAgree_iff h).1 ha m row)
    refine and_congr_left fun hleaf =>
      hplain.leaf_iff (hr.plain h.keeps hplain) hleaf fun hid => ?_
    -- of a document that does not come back, no leaf is written
    refine (hr.leaf_mem_broughtBack h hplain hne hid hleaf).trans (or_iff_left ?_)
    rintro (⟨hmem, -⟩ | ⟨e, he, rfl, -⟩)
    · exact hm hmem
    · exact hm ((mem_restorableDocuments h.keeps).1 he).2.2

end Table

namespace Operation

variable {t : Tenant} {T T' : Table} {op : Operation}

/-- What a request must find for the leaves to stay those that the paths name: a restore, documents
that fit; the removal of a folder, no leaf under the name of the folder. -/
def KeepsLeaves (t : Tenant) (T : Table) : Operation → Prop
  | restoreDocument id =>
    T.document? t id = none → ∀ e ∈ T.restorableDocuments t id, T.LeavesFit t e
  | deleteEmptyFolder path =>
    ∀ a, T.emptyFolder t path = .ok a → ∀ row ∈ T.get? a, row.isLeaf = false
  | _ => True

theorem Outcome.foldersAgree (ho : Outcome t T op T') (h : T.Sound t) (hplain : T.Plain)
    (hplain' : T'.Plain) (hkeeps : op.KeepsLeaves t T) (ha : T.FoldersAgree t) :
    T'.FoldersAgree t := by
  have h' : T'.Sound t := ho.sound h
  cases ho with
  | same => exact ha
  | saved => exact ha.saved h h' hplain hplain'
  | removed => exact ha.removed h _ _
  | restored hroot hne hr => exact ha.restored h hplain hne hr h' (hkeeps hroot)
  | metadata _ _ he => exact ha.of_metadata h h' he
  | emptied hempty => exact (ha.erase_iff h hempty).2 (hkeeps _ hempty)

/-- Only a restore and the removal of a folder can part leaves and paths. -/
theorem keepsLeaves_of_foldersAgree (h : T.Sound t) (hplain : T.Plain) (ha : T.FoldersAgree t)
    {c : Config} (ha' : (op.effect c t T).FoldersAgree t) : op.KeepsLeaves t T := by
  have h' := sound_effect h c op
  cases op with
  | restoreDocument id =>
    intro hroot e he
    obtain ⟨lives, hrestores, hmoves⟩ := Table.exists_restores h.keeps id
    obtain ⟨hrow, ht, hm⟩ := (Table.mem_restorableDocuments h.keeps).1 he
    have hne : T.restorable t id ≠ [] := by
      refine List.ne_nil_of_mem ((Table.mem_restorable_of_partition h.keeps hrow ?_).2 hm)
      rw [Row.address_marked, Document.address_liveRow ht]
      rfl
    have hlive : ¬((T.document? t id).isSome ∨ T.restorable t id = []) := by
      rw [hroot]
      exact not_or.2 ⟨nofun, hne⟩
    simp only [effect, hmoves, if_neg hlive] at ha' h'
    exact ha.leavesFit h hplain hne hrestores h' ha' he
  | deleteEmptyFolder path =>
    intro a hempty
    simp only [effect, hempty] at ha'
    exact (ha.erase_iff h hempty).1 ha'
  | _ => trivial

theorem foldersAgree_effect_iff (h : T.Sound t) (hplain : T.Plain) (ha : T.FoldersAgree t)
    {c : Config} (hplain' : (op.effect c t T).Plain) :
    (op.effect c t T).FoldersAgree t ↔ op.KeepsLeaves t T :=
  ⟨keepsLeaves_of_foldersAgree h hplain ha,
    fun hkeeps => (outcome_effect h c op).foldersAgree h hplain hplain' hkeeps ha⟩

end Operation

namespace Store

variable {t : Tenant} {c : Config} {requests : List Request}

theorem foldersAgree_fresh (t : Tenant) (name : String) (maxBatchSize : Nat) (clock : Clock) :
    (fresh name maxBatchSize clock).table.FoldersAgree t := by
  intro id row
  refine iff_of_false (fun h => not_mem_fresh name maxBatchSize clock row h.1) fun h => ?_
  have hnone : (fresh name maxBatchSize clock).table.namedLeaf? t id = none := rfl
  rw [hnone] at h
  cases h

theorem plain_run {name : String} {maxBatchSize : Nat} {clock : Clock}
    (hrequests : ∀ r ∈ requests, r.tenant = t)
    (hplain : ∀ r ∈ requests, ∀ d, r.operation = .saveDocument d → '#' ∉ d.id.toList) :
    (run c (fresh name maxBatchSize clock) requests).2.table.Plain := by
  intro id hid
  obtain ⟨r, hr, d, hd, rfl⟩ := saved_of_owns c name maxBatchSize clock hrequests hid
  exact hplain r hr d hd

/-- Along the requests of one tenant, which save documents under ids without the sign that stands
before ids: each live document has the leaf that its path names, and there is no other leaf, exactly
as long as each restore and each removal of a folder keeps the leaves. -/
theorem folders_agree_iff (c : Config) (name : String) (maxBatchSize : Nat) (clock : Clock)
    {t : Tenant} {requests : List Request} (hrequests : ∀ r ∈ requests, r.tenant = t)
    (hplain : ∀ r ∈ requests, ∀ d, r.operation = .saveDocument d → '#' ∉ d.id.toList) :
    (∀ n, (run c (fresh name maxBatchSize clock) (requests.take n)).2.table.FoldersAgree t) ↔
      ∀ n, (hn : n < requests.length) → requests[n].operation.KeepsLeaves t
        (run c (fresh name maxBatchSize clock) (requests.take n)).2.table := by
  refine run_take_iff (I := fun T => T.FoldersAgree t) (Q := fun r T => r.operation.KeepsLeaves t T)
    (foldersAgree_fresh t name maxBatchSize clock) fun n hn ha => ?_
  have hsound : (run c (fresh name maxBatchSize clock) (requests.take n)).2.table.Sound t :=
    sound_run (fun r hr => hrequests r (List.mem_of_mem_take hr))
      (sound_fresh t name maxBatchSize clock)
  have hids (n : Nat) : (run c (fresh name maxBatchSize clock) (requests.take n)).2.table.Plain :=
    plain_run (fun r hr => hrequests r (List.mem_of_mem_take hr))
      fun r hr => hplain r (List.mem_of_mem_take hr)
  have hids' := hids (n + 1)
  obtain ⟨calls, hcalls⟩ := table_step c
    (run c (fresh name maxBatchSize clock) (requests.take n)).2 requests[n]
  rw [run_take_succ hn, hcalls, hrequests _ (List.getElem_mem hn)] at hids' ⊢
  exact Operation.foldersAgree_effect_iff hsound (hids n) ha hids'

def note (path : String) : Document where
  id := "n"
  path := some path
  userId := "u"
  inserted := ⟨1704067200, 0⟩
  modified := ⟨1704067200, 0⟩

def noteMoved : List Request :=
  let request (op : Operation) : Request := ⟨.default, ⟨0⟩, op⟩
  [request (.saveDocument (note "a/x")), request (.deleteDocument "n" true),
    request (.deleteEmptyFolder "a"), request (.restoreDocument "n"),
    request (.saveDocument (note "b/y"))]

theorem folders_agree_noteMoved : (∀ r ∈ noteMoved, r.tenant = .default) ∧
    ∀ n, (run {} (fresh "documents" 100 ⟨0⟩) (noteMoved.take n)).2.table.FoldersAgree .default := by
  have hrequests : ∀ r ∈ noteMoved, r.tenant = .default := by decide
  have hplain : ∀ r ∈ noteMoved, ∀ d, r.operation = .saveDocument d → '#' ∉ d.id.toList := by
    intro r hr d hd
    have hid : d.id = "n" := by
      simp only [noteMoved, List.mem_cons, List.not_mem_nil, or_false] at hr
      rcases hr with rfl | rfl | rfl | rfl | rfl <;> cases hd <;> rfl
    rw [hid]
    decide
  refine ⟨hrequests, (folders_agree_iff {} "documents" 100 ⟨0⟩ hrequests hplain).2 ?_⟩
  intro n hn
  match n with
  | 0 | 1 | 4 => trivial
  | 2 =>
    intro a ha
    have hempty : (run {} (fresh "documents" 100 ⟨0⟩) (noteMoved.take 2)).2.table.emptyFolder
        .default "a" = .ok ⟨"folders#", "ff#a"⟩ := by
      decide +kernel
    obtain rfl := Except.ok.inj (hempty.symm.trans ha)
    decide +kernel
  | 3 =>
    intro _
    show ∀ e ∈ _, _ ∧ _
    decide +kernel

def noteDeletedTwice : List Request :=
  let request (op : Operation) : Request := ⟨.default, ⟨0⟩, op⟩
  [request (.saveDocument (note "a/x")), request (.deleteDocument "n" true),
    request (.saveDocument (note "b/x")), request (.deleteDocument "n" true),
    request (.restoreDocument "n")]

/-- The leaf of the first path comes back with the document of the second. -/
theorem restore_brings_back_stale_leaf :
    let T := (run {} (fresh "documents" 100 ⟨0⟩) noteDeletedTwice).2.table
    ¬T.FoldersAgree .default ∧ ∃ stale ∈ T, (note "a/x").leaf? .default = some stale ∧
      T.document? .default "n" = some (note "b/x") := by
  have hrow : ∃ stale, (note "a/x").leaf? .default = some stale := ⟨_, rfl⟩
  obtain ⟨stale, hstale⟩ := hrow
  have hback : ∀ row ∈ (note "a/x").leaf? .default,
      row ∈ (run {} (fresh "documents" 100 ⟨0⟩) noteDeletedTwice).2.table := by
    decide +kernel
  have hdocument : (run {} (fresh "documents" 100 ⟨0⟩) noteDeletedTwice).2.table.document?
      .default "n" = some (note "b/x") := by
    decide +kernel
  have hleaf := Row.isLeafOf_of_leaf? hstale
  refine ⟨fun hagree => ?_, stale, hback stale hstale, hstale, hdocument⟩
  have hnamed := (hagree "n" stale).1
    ⟨hback stale hstale, hleaf.1.isMarked, hleaf.2.1, hleaf.2.2⟩
  rw [Table.namedLeaf?, hdocument, Option.bind_some, ← hstale] at hnamed
  revert hnamed
  decide +kernel

end Store

end Cabinet
