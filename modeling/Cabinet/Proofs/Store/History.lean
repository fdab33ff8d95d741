import Cabinet.Proofs.Store.Soundness
import Mathlib.Data.List.Chain

/-! The versions of a document. Main statement: from the first time a document is saved until it is
deleted, each save is found again under its number, the last one live and the others in order. -/

namespace Cabinet

/-- How a save follows the one before it: one number on, with the same date of insertion. -/
def Document.Precedes (d e : Document) : Prop :=
  e.currentVersion.toNat = d.currentVersion.toNat + 1 ∧ e.inserted = d.inserted

namespace Document

variable {first : Document} {rest ds : List Document}

theorem currentVersion_of_chain (h : (first :: rest).IsChain Precedes) {i : Nat}
    (hi : i < (first :: rest).length) :
    (first :: rest)[i].currentVersion.toNat = first.currentVersion.toNat + i := by
  induction i with
  | zero => rfl
  | succ i ih =>
    have hstep := List.isChain_iff_getElem.1 h i hi
    rw [hstep.1, ih (by omega), Nat.add_assoc]

theorem inserted_of_chain (h : (first :: rest).IsChain Precedes) {i : Nat}
    (hi : i < (first :: rest).length) : (first :: rest)[i].inserted = first.inserted := by
  induction i with
  | zero => rfl
  | succ i ih =>
    have hstep := List.isChain_iff_getElem.1 h i hi
    exact hstep.2.trans (ih (by omega))

theorem pairwise_of_chain (h : ds.IsChain Precedes) :
    ds.Pairwise fun d e => d.currentVersion < e.currentVersion := by
  refine List.isChain_iff_pairwise.1 (h.imp fun d e hde => ?_)
  have hnumber := hde.1
  exact UInt32.lt_iff_toNat_lt.2 (by omega)

/-- The rows of the records of a document: the last save is live and the ones before are archived. -/
def recordRows (ds : List Document) : List Row :=
  ds.dropLast.map archivedRow ++ ds.getLast?.toList.map liveRow

theorem mem_recordRows {row : Row} : row ∈ recordRows ds ↔
    (∃ d ∈ ds.dropLast, row = d.archivedRow) ∨ ∃ d ∈ ds.getLast?, row = d.liveRow := by
  simp only [recordRows, List.mem_append, List.mem_map, Option.mem_toList, Option.mem_def, eq_comm]

theorem recordRows_concat (ds : List Document) (d : Document) :
    recordRows (ds ++ [d]) = ds.map archivedRow ++ [d.liveRow] := by
  simp [recordRows]

theorem address_archivedRow {t : Tenant} {d : Document} (h : d.tenant = t) :
    d.archivedRow.address = ⟨Partition.document t d.id, SortKey.version d.currentVersion⟩ := by
  subst h
  rfl

end Document

theorem Row.IsAside.address_ne_of_isRecordOf {t : Tenant} {row r : Row} {id : String}
    (h : row.IsAside t) (hr : r.IsRecordOf t id) : row.address ≠ r.address := by
  intro ha
  obtain ⟨hlive, hp, hdocument⟩ := hr
  have hsort := (hlive.isSome_document?_iff hp).1 hdocument
  rw [← ha] at hp hsort
  have hsome := (h.1.isSome_document?_iff hp).2 hsort
  rw [h.2] at hsome
  cases hsome

namespace Table

open Document

/-- The records of a document are those of its saves `ds`, one after another. -/
structure Chronicles (t : Tenant) (id : String) (T : Table) (ds : List Document) : Prop where
  owned : ∀ d ∈ ds, d.tenant = t ∧ d.id = id
  chain : ds.IsChain Precedes
  rows : ∀ row, row ∈ T ∧ row.IsRecordOf t id ↔ row ∈ recordRows ds

variable {t : Tenant} {T T' : Table} {row : Row} {id : String} {d : Document} {ds : List Document}

theorem Chronicles.document?_eq (hc : T.Chronicles t id ds) (h : T.Keeps t) :
    T.document? t id = ds.getLast? := by
  apply Option.ext
  intro d
  rw [document?_eq_some_iff h]
  constructor
  · rintro ⟨hrow, ht, hid⟩
    have hrecord := (hc.rows d.liveRow).1 ⟨hrow, Row.isRecordOf_liveRow d ht hid⟩
    rcases mem_recordRows.1 hrecord with ⟨e, he, hrow⟩ | ⟨e, he, hrow⟩
    · have hsort := congrArg (fun row => row.address.sort) hrow
      exact absurd hsort (SortKey.document_ne_version e.currentVersion)
    · obtain rfl := liveRow_injective hrow
      exact he
  · intro hlast
    obtain ⟨ht, hid⟩ := hc.owned d (List.mem_of_getLast? hlast)
    exact ⟨((hc.rows d.liveRow).2 (mem_recordRows.2 (.inr ⟨d, hlast, rfl⟩))).1, ht, hid⟩

theorem Chronicles.mem_rowsFrom_iff (hc : T.Chronicles t id ds) (h : T.Keeps t) :
    row ∈ T.rowsFrom (Partition.document t id) SortKey.versionFront ↔
      ∃ d ∈ ds.dropLast, row = d.archivedRow := by
  rw [mem_rowsFrom]
  constructor
  · rintro ⟨hmem, hp, hsort⟩
    have hlive : row.IsLive t := h.isLive_of_document hmem hp
    have hfront : Text.beginsWith SortKey.document row.address.sort := by
      obtain ⟨rest, hrest⟩ := Text.beginsWith_iff.1 hsort
      refine Text.beginsWith_iff.2 ⟨"#v" ++ rest, ?_⟩
      rw [hrest, ← String.append_assoc]
      exact congrArg (· ++ rest) (by decide)
    have hdocument := (hlive.isSome_document?_iff hp).2 hfront
    have hrecord := (hc.rows row).1 ⟨hmem, hlive, hp, hdocument⟩
    refine (mem_recordRows.1 hrecord).resolve_right ?_
    rintro ⟨d, -, rfl⟩
    have hlast : Text.beginsWith SortKey.versionFront SortKey.document = true := hsort
    exact absurd hlast (by decide)
  · rintro ⟨d, hd, rfl⟩
    obtain ⟨ht, hid⟩ := hc.owned d (List.dropLast_subset ds hd)
    obtain ⟨hmem, -, hp, -⟩ := (hc.rows d.archivedRow).2 (mem_recordRows.2 (.inl ⟨d, hd, rfl⟩))
    exact ⟨hmem, hp, Text.beginsWith_append _ _⟩

theorem Chronicles.version?_eq_some_iff (hc : T.Chronicles t id ds) (h : T.Keeps t) {n : UInt32} :
    T.version? t id n = some d ↔ d ∈ ds.dropLast ∧ d.currentVersion = n := by
  unfold version?
  rw [Option.bind_eq_some_iff]
  constructor
  · rintro ⟨row, hget, hd⟩
    obtain ⟨hmem, ha⟩ := get?_eq_some_iff.1 hget
    have hfrom : row ∈ T.rowsFrom (Partition.document t id) SortKey.versionFront := by
      rw [mem_rowsFrom, ha]
      exact ⟨hmem, rfl, Text.beginsWith_append _ _⟩
    obtain ⟨e, he, rfl⟩ := (hc.mem_rowsFrom_iff h).1 hfrom
    obtain rfl : e = d := Option.some.inj hd
    exact ⟨he, SortKey.version_injective (Address.mk.inj ha).2⟩
  · rintro ⟨hd, rfl⟩
    obtain ⟨ht, hid⟩ := hc.owned d (List.dropLast_subset ds hd)
    have hmem := (hc.rows d.archivedRow).2 (mem_recordRows.2 (.inl ⟨d, hd, rfl⟩))
    refine ⟨d.archivedRow, get?_eq_some_iff.2 ⟨hmem.1, ?_⟩, rfl⟩
    rw [address_archivedRow ht, hid]

theorem Chronicles.documentVersion?_eq_some (hc : T.Chronicles t id ds) (h : T.Keeps t)
    (hd : d ∈ ds) : T.documentVersion? t id d.currentVersion = some d := by
  obtain rfl | ⟨past, live, rfl⟩ := ds.eq_nil_or_concat'
  · cases hd
  unfold documentVersion?
  rw [hc.document?_eq h, List.getLast?_concat]
  simp only
  rcases List.mem_append.1 hd with hpast | hlast
  · have hbefore := (List.pairwise_append.1 (pairwise_of_chain hc.chain)).2.2 d hpast live (by simp)
    have hne : live.currentVersion ≠ d.currentVersion := (UInt32.ne_of_lt hbefore).symm
    rw [if_neg hne, hc.version?_eq_some_iff h, List.dropLast_concat]
    exact ⟨hpast, rfl⟩
  · rw [List.mem_singleton.1 hlast, if_pos rfl]

theorem Chronicles.documentVersion?_eq_none (hc : T.Chronicles t id ds) (h : T.Keeps t)
    {n : UInt32} (hn : ∀ d ∈ ds, d.currentVersion ≠ n) : T.documentVersion? t id n = none := by
  have harchived : T.version? t id n = none := by
    apply Option.eq_none_iff_forall_ne_some.2
    intro d hd
    obtain ⟨hmem, hnumber⟩ := (hc.version?_eq_some_iff h).1 hd
    exact hn d (List.dropLast_subset ds hmem) hnumber
  unfold documentVersion?
  rw [hc.document?_eq h, harchived]
  cases hlast : ds.getLast? with
  | none => rfl
  | some live => exact if_neg (hn live (List.mem_of_getLast? hlast))

theorem filterMap_archivedRow (ds : List Document) :
    ((ds.map archivedRow).filterMap fun row => do
      return (← SortKey.readVersion? row.address.sort, ← row.document?)) =
      ds.map fun d => (d.currentVersion, d) := by
  rw [List.filterMap_map, ← List.filterMap_eq_map]
  congr 1
  funext d
  have hread : SortKey.readVersion? d.archivedRow.address.sort = some d.currentVersion :=
    SortKey.readVersion?_version d.currentVersion
  simp only [Function.comp, hread]
  rfl

theorem Chronicles.versions_eq (hc : T.Chronicles t id ds) (h : T.Keeps t) :
    T.versions t id = ds.dropLast := by
  have hlater : ds.dropLast.Pairwise fun d e => d.currentVersion < e.currentVersion :=
    (pairwise_of_chain hc.chain).sublist (List.dropLast_sublist ds)
  have hrows : (T.rowsFrom (Partition.document t id) SortKey.versionFront).Perm
      (ds.dropLast.map archivedRow) := by
    have hnodup : (ds.dropLast.map archivedRow).Nodup := by
      refine List.pairwise_map.2 (hlater.imp fun {d e} hlt he => ?_)
      obtain rfl : d = e := Record.document.inj (congrArg Row.record he)
      exact UInt32.lt_irrefl d.currentVersion hlt
    apply (List.perm_ext_iff_of_nodup (queryAll_nodup rfl) hnodup).2
    intro row
    rw [List.mem_map]
    exact (hc.mem_rowsFrom_iff h).trans
      (exists_congr fun d => and_congr_right fun _ => eq_comm)
  have hnumbered := hrows.filterMap fun row => do
    return (← SortKey.readVersion? row.address.sort, ← row.document?)
  rw [filterMap_archivedRow] at hnumbered
  unfold versions
  simp only
  rw [sortBy_eq_of_perm ?_ ?_ hnumbered ?_, List.map_map]
  · exact List.map_id _
  · simp only [decide_eq_true_eq, decide_eq_false_iff_not]
    exact fun a b hab => UInt32.lt_asymm hab
  · simp only [decide_eq_true_eq, UInt32.lt_iff_toNat_lt]
    omega
  · exact List.pairwise_map.2 (hlater.imp decide_eq_true)

theorem Chronicles.of_edits (hc : T.Chronicles t id ds) {P : Row → Prop}
    (hP : ∀ r, P r → ∀ row : Row, row.IsRecordOf t id → r.address ≠ row.address)
    (he : T.Edits P T') : T'.Chronicles t id ds := by
  refine ⟨hc.owned, hc.chain, fun row => Iff.trans ?_ (hc.rows row)⟩
  exact and_congr_left fun hrow => he.kept row fun r hr => hP r hr row hrow

theorem Edits.record_iff (he : T.Edits (Row.IsAside t) T') (hrow : row.IsRecordOf t id) :
    row ∈ T' ↔ row ∈ T :=
  he.kept row fun _ hr => hr.address_ne_of_isRecordOf hrow

theorem record_mem_saved (hrow : row.IsRecordOf t id) : row ∈ T.saved t d ↔
    row = (T.successor t d).liveRow ∨
      row ∈ T.cleared t d ∧ row.address ≠ (T.successor t d).liveRow.address := by
  have hindex := (edits_indexPath (T.cleared t d) t d.id d.path).mono fun _ => Row.IsNode.isAside
  unfold saved
  rw [mem_put, hindex.record_iff hrow]

theorem record_mem_cleared {live : Document} (hlive : T.document? t d.id = some live)
    (hrow : row.IsRecordOf t id) : row ∈ T.cleared t d ↔
      row = live.archivedRow ∨ row ∈ T ∧ row.address ≠ live.archivedRow.address := by
  have hleaf : (T.put live.archivedRow).Edits (Row.IsAside t) (T.cleared t d) := by
    rw [cleared_eq, hlive]
    exact Edits.eraseAll
      (fun _ hleaf => (isNode_of_droppedLeaf? (Option.mem_toList.1 hleaf)).isAside) _
  rw [hleaf.record_iff hrow, mem_put]

theorem precedes_successor {live : Document} (hlive : T.document? t d.id = some live)
    (hfits : live.currentVersion.toNat + 1 < UInt32.size) : live.Precedes (T.successor t d) := by
  unfold successor
  rw [hlive]
  refine ⟨?_, rfl⟩
  show (live.currentVersion + 1).toNat = live.currentVersion.toNat + 1
  rw [UInt32.toNat_add]
  exact Nat.mod_eq_of_lt hfits

theorem Chronicles.mem_cleared_iff (hc : T.Chronicles t d.id ds) (h : T.Keeps t)
    (hrecord : row.IsRecordOf t d.id) (hsort : row.address.sort ≠ SortKey.document) :
    row ∈ T.cleared t d ↔ ∃ e ∈ ds, row = e.archivedRow := by
  have hdocument := hc.document?_eq h
  obtain rfl | ⟨past, live, rfl⟩ := ds.eq_nil_or_concat'
  · have hcleared : T.cleared t d = T := by
      rw [cleared_eq, droppedLeaf?, hdocument]
      rfl
    have hnot : row ∉ T := fun hmem => by simpa [recordRows] using (hc.rows row).1 ⟨hmem, hrecord⟩
    rw [hcleared]
    exact iff_of_false hnot (by simp)
  rw [List.getLast?_concat] at hdocument
  rw [record_mem_cleared hdocument hrecord]
  constructor
  · rintro (rfl | ⟨hmem, -⟩)
    · exact ⟨live, List.mem_concat_self, rfl⟩
    · have hrow := mem_recordRows.1 ((hc.rows row).1 ⟨hmem, hrecord⟩)
      rw [List.dropLast_concat, List.getLast?_concat] at hrow
      rcases hrow with ⟨e, he, rfl⟩ | ⟨e, -, rfl⟩
      · exact ⟨e, List.mem_append_left _ he, rfl⟩
      · exact absurd rfl hsort
  · rintro ⟨e, he, rfl⟩
    rcases List.mem_append.1 he with hpast | hlast
    · have hmem := (hc.rows e.archivedRow).2
        (mem_recordRows.2 (.inl ⟨e, by rwa [List.dropLast_concat], rfl⟩))
      refine .inr ⟨hmem.1, fun ha => ?_⟩
      have hnumber := SortKey.version_injective (congrArg Address.sort ha)
      have hbefore := (List.pairwise_append.1 (pairwise_of_chain hc.chain)).2.2 e hpast live
        List.mem_cons_self
      exact UInt32.ne_of_lt hbefore hnumber
    · rw [List.mem_singleton.1 hlast]
      exact .inl rfl

theorem Chronicles.saved (hc : T.Chronicles t d.id ds) (h : T.Keeps t)
    (hfits : ∀ live ∈ ds.getLast?, live.currentVersion.toNat + 1 < UInt32.size) :
    (T.saved t d).Chronicles t d.id (ds ++ [T.successor t d]) := by
  have hdocument := hc.document?_eq h
  have ht := T.successor_tenant t d
  have hnew := Row.isRecordOf_liveRow (T.successor t d) ht (T.successor_id t d)
  have hchain : (ds ++ [T.successor t d]).IsChain Precedes := by
    refine List.isChain_append.2 ⟨hc.chain, List.isChain_singleton _, ?_⟩
    rintro live hlive _ ⟨⟩
    exact precedes_successor (hdocument.trans hlive) (hfits live hlive)
  have howned : ∀ e ∈ ds ++ [T.successor t d], e.tenant = t ∧ e.id = d.id := by
    intro e he
    rcases List.mem_append.1 he with he | he
    · exact hc.owned e he
    · obtain rfl := List.mem_singleton.1 he
      exact ⟨ht, T.successor_id t d⟩
  refine ⟨howned, hchain, fun row => ?_⟩
  rw [recordRows_concat, List.mem_append, List.mem_singleton, or_comm, List.mem_map]
  constructor
  · rintro ⟨hrow, hrecord⟩
    refine ((record_mem_saved hrecord).1 hrow).imp_right ?_
    rintro ⟨hcleared, hne⟩
    have hsort : row.address.sort ≠ SortKey.document := by
      intro hsort
      refine hne ?_
      rw [address_liveRow ht, T.successor_id, ← hsort, ← hrecord.2.1]
    obtain ⟨e, he, rfl⟩ := (hc.mem_cleared_iff h hrecord hsort).1 hcleared
    exact ⟨e, he, rfl⟩
  · rintro (rfl | ⟨e, he, rfl⟩)
    · exact ⟨(record_mem_saved hnew).2 (.inl rfl), hnew⟩
    · obtain ⟨het, heid⟩ := hc.owned e he
      have hrecord := Row.isRecordOf_archivedRow e het heid
      have hsort : e.archivedRow.address.sort ≠ SortKey.document :=
        (SortKey.document_ne_version e.currentVersion).symm
      refine ⟨(record_mem_saved hrecord).2 (.inr ⟨?_, fun ha => ?_⟩), hrecord⟩
      · exact (hc.mem_cleared_iff h hrecord hsort).2 ⟨e, he, rfl⟩
      · exact hsort (congrArg Address.sort ha)

theorem Chronicles.counted (hc : T.Chronicles t id ds) (n : Nat) :
    Table.Chronicles t id { T with batchCalls := n } ds :=
  ⟨hc.owned, hc.chain, hc.rows⟩

end Table

/-- The numbers of saves do not run out. -/
def Document.Fits (ds : List Document) : Prop :=
  ∀ first ∈ ds.head?, first.currentVersion.toNat + ds.length ≤ UInt32.size

theorem Document.lt_size_of_fits {ds later : List Document} {next : Document}
    (h : ds.IsChain Precedes) (hfits : Fits (ds ++ next :: later)) :
    ∀ live ∈ ds.getLast?, live.currentVersion.toNat + 1 < UInt32.size := by
  intro live hlive
  cases ds with
  | nil => cases hlive
  | cons first rest =>
    have hbound : first.currentVersion.toNat + (first :: rest ++ next :: later).length ≤
        UInt32.size := hfits first rfl
    rw [List.length_append, List.length_cons, List.length_cons] at hbound
    have hnumber := currentVersion_of_chain h (i := rest.length) (by simp)
    rw [List.getLast?_eq_getElem?, Option.mem_def, List.getElem?_eq_some_iff] at hlive
    obtain ⟨hlast, rfl⟩ := hlive
    simp only [List.length_cons, Nat.add_sub_cancel] at hnumber ⊢
    omega

def Operation.keepsDocuments : Operation → Bool
  | deleteDocument _ _ | restoreDocument _ => false
  | _ => true

namespace Operation

variable {t : Tenant} {T T' : Table} {op : Operation} {id : String} {ds : List Document}

/-- The kinds of the records that a request writes and erases, when it keeps the documents. -/
def kinds : Operation → List RecordKind
  | saveDocument _ => [.document, .folderNode]
  | addTags _ _ | deleteTag _ _ => [.tag]
  | setAttributes _ _ | deleteAttribute _ _ => [.attribute]
  | deleteEmptyFolder _ => [.folderNode]
  | _ => []

theorem edits_kinds (h : T.Keeps t) (c : Config) (hop : op.keepsDocuments) :
    T.Edits (fun row => row.IsLive t ∧ row.record.kind ∈ op.kinds) (op.effect c t T) := by
  have metadata {id : String} {kind : RecordKind} {op : Operation} (hkind : kind ∈ op.kinds)
      (row : Row) (hrow : row.IsMetadataOfKind t id kind) :
      row.IsLive t ∧ row.record.kind ∈ op.kinds := ⟨hrow.1.1, hrow.2 ▸ hkind⟩
  cases op with
  | saveDocument d =>
    simp only [effect]
    split
    · exact Table.Edits.refl T
    · refine (Table.edits_saved h d).mono fun row hrow => ?_
      rcases hrow with hrecord | hnode
      · exact ⟨hrecord.1, by simp [hrecord.kind, kinds]⟩
      · exact ⟨hnode.1, by simp [hnode.kind, kinds]⟩
  | deleteDocument | restoreDocument => cases hop
  | addTags id tags =>
    simp only [effect]
    split
    · exact Table.Edits.refl T
    · exact (Table.edits_setTags h tags).mono (metadata List.mem_cons_self)
  | deleteTag id key => exact (Table.edits_eraseTagRows h).mono (metadata List.mem_cons_self)
  | setAttributes id attributes =>
    simp only [effect]
    split
    · exact Table.Edits.refl T
    · exact (Table.edits_attributesSet h c attributes).mono (metadata List.mem_cons_self)
  | deleteAttribute id key =>
    exact (Table.edits_attributeDeleted h c).mono (metadata List.mem_cons_self)
  | deleteEmptyFolder path =>
    simp only [effect]
    split
    · rename_i a ha
      refine (Table.edits_emptyFolder h ha).mono fun row hnode => ⟨hnode.1, ?_⟩
      simp [hnode.kind, kinds]
    · exact Table.Edits.refl T
  | findDocument | findDocuments | findDocumentVersion | listDocumentVersions | findChildDocuments
  | listDocumentsByDate | listDeletedDocuments | findTags | findTag | searchTags | findAttributes
  | findAttribute | search | listFolder | folderOfDocument => exact Table.Edits.refl T

theorem Outcome.chronicles (ho : Outcome t T op T') (h : T.Sound t) (hop : op.keepsDocuments)
    (hsave : ∀ d, op ≠ saveDocument d) (hc : T.Chronicles t id ds) : T'.Chronicles t id ds := by
  have aside {T' : Table} (he : T.Edits (Row.IsAside t) T') : T'.Chronicles t id ds :=
    hc.of_edits (fun r hr row hrow => hr.address_ne_of_isRecordOf hrow) he
  cases ho with
  | same => exact hc
  | saved => exact absurd rfl (hsave _)
  | removed => cases hop
  | restored => cases hop
  | metadata _ _ he => exact aside (he.mono fun _ => Row.IsMetadataOf.isAside)
  | emptied ha => exact aside ((Table.edits_emptyFolder h.keeps ha).mono fun _ => Row.IsNode.isAside)

end Operation

namespace Store

def saved? (id : String) (r : Request) (answer : Except Error Answer) : Option Document :=
  match r.operation, answer with
  | .saveDocument d, .ok (.document saved) => if d.id = id then saved else none
  | _, _ => none

def savesOf (id : String) : List Request → List (Except Error Answer) → List Document
  | r :: rest, answer :: answers => (saved? id r answer).toList ++ savesOf id rest answers
  | _, _ => []

variable {t : Tenant} {c : Config} {s : Store} {r : Request} {id : String} {ds : List Document}

theorem step_saveDocument {d : Document} (h : r.operation = .saveDocument d) : s.step c r =
    match s.table.saveFault? r.tenant d with
    | some e => (.error e, { s with clock := r.clock })
    | none => (.ok (.document (some (s.table.successor r.tenant d))),
        { s with clock := r.clock, table := s.table.saved r.tenant d }) := by
  unfold step
  rw [h]
  simp only [Operation.perform, Action.run_bind, run_saveDocument]
  cases s.table.saveFault? r.tenant d <;> rfl

theorem chronicles_step (hs : s.table.Sound t) (hr : r.tenant = t ∧ r.operation.keepsDocuments)
    (hc : s.table.Chronicles t id ds) {later : List Document}
    (hfits : Document.Fits (ds ++ ((saved? id r (s.step c r).1).toList ++ later))) :
    (s.step c r).2.table.Chronicles t id (ds ++ (saved? id r (s.step c r).1).toList) := by
  obtain ⟨rfl, hkeeps⟩ := hr
  by_cases hsave : ∃ d, r.operation = .saveDocument d
  · obtain ⟨d, hd⟩ := hsave
    rw [step_saveDocument hd] at hfits ⊢
    cases hfault : s.table.saveFault? r.tenant d with
    | some e => simpa [saved?, hd] using hc
    | none =>
      rw [hfault] at hfits
      by_cases hid : d.id = id
      · subst hid
        have hsaved : saved? d.id r (.ok (.document (some (s.table.successor r.tenant d)))) =
            some (s.table.successor r.tenant d) := by
          simp [saved?, hd]
        simp only [hsaved, Option.toList_some] at hfits ⊢
        exact hc.saved hs.keeps (Document.lt_size_of_fits hc.chain hfits)
      · have hsaved : saved? id r (.ok (.document (some (s.table.successor r.tenant d)))) =
            none := by
          simp [saved?, hd, hid]
        simp only [hsaved, Option.toList_none, List.append_nil]
        refine hc.of_edits (fun row hrow record hrecord ha => ?_) (Table.edits_saved hs.keeps d)
        -- the rows of one document are in no partition of another
        have hp := (congrArg Address.partition ha).trans hrecord.2.1
        rcases hrow with hrow | hrow
        · exact hid (Partition.document_injective (hrow.2.1.symm.trans hp))
        · exact hrow.partition_ne id hp
  · have hnone : saved? id r (s.step c r).1 = none := by
      unfold saved?
      split
      · rename_i hop _
        exact absurd ⟨_, hop⟩ hsave
      · rfl
    rw [hnone, Option.toList_none, List.append_nil]
    obtain ⟨n, hn⟩ := table_step c s r
    rw [hn]
    have houtcome := Operation.outcome_effect hs c r.operation
    exact (houtcome.chronicles hs hkeeps (fun d hd => hsave ⟨d, hd⟩) hc).counted n

/-- Each save is added to the ones before, whatever comes in between. -/
theorem chronicles_run {requests : List Request} (hs : s.table.Sound t)
    (hrequests : ∀ r ∈ requests, r.tenant = t ∧ r.operation.keepsDocuments)
    (hc : s.table.Chronicles t id ds)
    (hfits : Document.Fits (ds ++ savesOf id requests (run c s requests).1)) :
    (run c s requests).2.table.Chronicles t id
      (ds ++ savesOf id requests (run c s requests).1) := by
  induction requests generalizing s ds with
  | nil =>
    have hnone : savesOf id [] (run c s []).1 = [] := rfl
    rw [hnone, List.append_nil]
    exact hc
  | cons r rest ih =>
    rw [run_cons, savesOf] at hfits ⊢
    have hr := hrequests r List.mem_cons_self
    have hstep := chronicles_step hs hr hc hfits
    have hsound : (s.step c r).2.table.Sound t := sound_step hr.1 hs
    rw [← List.append_assoc] at hfits ⊢
    exact ih hsound (fun r' hr' => hrequests r' (List.mem_cons_of_mem r hr')) hstep hfits

theorem chronicles_nil
    (hempty : ∀ row ∈ s.table, row.address.partition ≠ Partition.document t id) :
    s.table.Chronicles t id [] where
  owned _ hd := absurd hd List.not_mem_nil
  chain := List.isChain_nil
  rows row := iff_of_false (fun h => hempty row h.1 h.2.2.1) nofun

/-- From any store that requests of one tenant lead to and in which a document has no rows: after
further requests, none of which deletes or restores documents, each save of the document is found
under its number, one after another from the number of the first. The last one is live, the ones
before are listed in order, and all keep the date of insertion. -/
theorem saves_are_kept (c : Config) (name : String) (maxBatchSize : Nat) (clock : Clock)
    {t : Tenant} {earlier later : List Request} (hearlier : ∀ r ∈ earlier, r.tenant = t)
    (hlater : ∀ r ∈ later, r.tenant = t ∧ r.operation.keepsDocuments) {id : String}
    (hempty : ∀ row ∈ (run c (fresh name maxBatchSize clock) earlier).2.table,
      row.address.partition ≠ Partition.document t id) {first : Document} {rest : List Document}
    (hsaves : savesOf id later (run c (run c (fresh name maxBatchSize clock) earlier).2 later).1 =
      first :: rest)
    (hfits : first.currentVersion.toNat + rest.length < UInt32.size) :
    let s := (run c (run c (fresh name maxBatchSize clock) earlier).2 later).2
    let ds := first :: rest
    (findDocument t id).run s = (.ok (some (ds.getLast (List.cons_ne_nil first rest))), s) ∧
      (∀ i, (hi : i < ds.length) →
        ds[i].currentVersion.toNat = first.currentVersion.toNat + i) ∧
      (listDocumentVersions t id).run s = (.ok ds.dropLast, s) ∧
      (∀ d ∈ ds, (findDocumentVersion t id d.currentVersion).run s = (.ok (some d), s)) ∧
      (∀ n, (∀ d ∈ ds, d.currentVersion ≠ n) →
        (findDocumentVersion t id n).run s = (.ok none, s)) ∧
      ∀ d ∈ ds, d.inserted = first.inserted := by
  intro s ds
  have hbase : (run c (fresh name maxBatchSize clock) earlier).2.table.Sound t :=
    sound_run hearlier (sound_fresh t name maxBatchSize clock)
  have hsound : s.table.Sound t := sound_run (fun r hr => (hlater r hr).1) hbase
  have hkeeps := hsound.keeps
  have hc : s.table.Chronicles t id ds := by
    have hrun := chronicles_run hbase hlater (chronicles_nil hempty) (c := c)
    rw [List.nil_append, hsaves] at hrun
    refine hrun ?_
    rintro _ ⟨⟩
    exact hfits
  refine ⟨?_, fun i hi => Document.currentVersion_of_chain hc.chain hi, ?_, fun d hd => ?_,
    fun n hn => ?_, fun d hd => ?_⟩
  · have hlast := List.getLast?_eq_some_getLast (List.cons_ne_nil first rest)
    rw [← hlast, ← hc.document?_eq hkeeps]
    rfl
  · rw [← hc.versions_eq hkeeps]
    rfl
  · rw [run_findDocumentVersion, hc.documentVersion?_eq_some hkeeps hd]
  · rw [run_findDocumentVersion, hc.documentVersion?_eq_none hkeeps hn]
  · obtain ⟨i, hi, rfl⟩ := List.mem_iff_getElem.1 hd
    exact Document.inserted_of_chain hc.chain hi

def report (t : Tenant) (contentType : String) (version : Option UInt32) : Document where
  id := "p"
  tenant := t
  path := some "a/p.txt"
  contentType := some contentType
  userId := "u"
  inserted := ⟨1704067200, 0⟩
  modified := ⟨1704067200, 0⟩
  version

def reportDeleted : List Request :=
  let request (op : Operation) : Request := ⟨.site "acme", ⟨0⟩, op⟩
  [request (.saveDocument (report .default "0" none)), request (.deleteDocument "p" false)]

def reportSaved : List Request :=
  let request (op : Operation) : Request := ⟨.site "acme", ⟨0⟩, op⟩
  [request (.saveDocument (report .default "1" (some 9))),
    request (.addTags "p" [⟨"p", "draft", .keyOnly, .userDefined, "u", ⟨1704067200, 0⟩⟩]),
    request (.saveDocument { report .default "2" none with inserted := ⟨1704153600, 0⟩ }),
    request (.deleteEmptyFolder "a"),
    request (.saveDocument (report .default "3" none))]

theorem saves_of_report_are_kept :
    (∀ r ∈ reportDeleted, r.tenant = .site "acme") ∧
    (∀ r ∈ reportSaved, r.tenant = .site "acme" ∧ r.operation.keepsDocuments) ∧
    let s := (run {} (run {} (fresh "documents" 100 ⟨0⟩) reportDeleted).2 reportSaved).2
    (listDocumentVersions (.site "acme") "p").run s =
        (.ok [report (.site "acme") "1" (some 9), report (.site "acme") "2" (some 10)], s) ∧
      (findDocumentVersion (.site "acme") "p" 10).run s =
        (.ok (some (report (.site "acme") "2" (some 10))), s) ∧
      (findDocumentVersion (.site "acme") "p" 12).run s = (.ok none, s) := by
  have hearlier : ∀ r ∈ reportDeleted, r.tenant = .site "acme" := by decide
  have hlater : ∀ r ∈ reportSaved, r.tenant = .site "acme" ∧ r.operation.keepsDocuments := by
    decide
  have hempty : ∀ row ∈ (run {} (fresh "documents" 100 ⟨0⟩) reportDeleted).2.table.rows.toList,
      row.address.partition ≠ Partition.document (.site "acme") "p" := by decide +kernel
  have hsaves : savesOf "p" reportSaved
      (run {} (run {} (fresh "documents" 100 ⟨0⟩) reportDeleted).2 reportSaved).1 =
        [report (.site "acme") "1" (some 9), report (.site "acme") "2" (some 10),
          report (.site "acme") "3" (some 11)] := by
    decide +kernel
  obtain ⟨-, -, hlist, hfind, hnone, -⟩ :=
    saves_are_kept {} "documents" 100 ⟨0⟩ hearlier hlater hempty hsaves (by decide)
  refine ⟨hearlier, hlater, hlist, ?_, hnone 12 (by decide)⟩
  exact hfind (report (.site "acme") "2" (some 10)) (by decide)

end Store

end Cabinet
