import Cabinet.Proofs.Store.Reached

/-! Finding documents by their ids. Main statements: the documents that are found at once are the
ones that are found one by one, and no request changes the collections that a table has besides its
rows, or its limit on batches. -/

namespace Cabinet

namespace Table

variable {t : Tenant} {T : Table} {c : Config}

theorem find?_of_read (h : T.Keeps t) {ids : List String} {id : String} (hid : id ∈ ids)
    {documents : List Document}
    (hmem : ∀ d, d ∈ documents ↔ ∃ m ∈ ids, T.document? t m = some d) :
    documents.find? (·.id = id) = T.document? t id := by
  -- what is read for an id has it
  have hown {m : String} {d : Document} (hd : T.document? t m = some d) : d.id = m :=
    ((document?_eq_some_iff h).1 hd).2.2
  cases hlive : T.document? t id with
  | none =>
    refine List.find?_eq_none.2 fun d hd => ?_
    obtain ⟨m, -, hm⟩ := (hmem d).1 hd
    rw [decide_eq_true_iff, hown hm]
    rintro rfl
    rw [hlive] at hm
    cases hm
  | some d =>
    have hd : d ∈ documents := (hmem d).2 ⟨id, hid, hlive⟩
    obtain ⟨e, he⟩ := Option.isSome_iff_exists.1 ((List.find?_isSome (p := (·.id = id))).2
      ⟨d, hd, decide_eq_true (hown hlive)⟩)
    obtain ⟨m, -, hm⟩ := (hmem e).1 (List.mem_of_find?_eq_some he)
    have heid : e.id = id := by simpa using List.find?_some he
    obtain rfl : m = id := (hown hm).symm.trans heid
    rw [he, ← hm, hlive]

/-- The documents that are found at once are the ones that are found one by one, each once. -/
theorem lookUp_eq (h : T.Keeps t) (hname : T.name = c.documentsTable) (hmax : 0 < T.maxBatchSize)
    (ids : List String) :
    (T.lookUp c t ids).1 = .ok ((firsts ids).filterMap (T.document? t)) := by
  have hcollection : T.collection c.documentsTable = T.rows := by rw [collection, if_pos hname.symm]
  unfold lookUp
  generalize haddresses :
    (ids.map fun id => (⟨Partition.document t id, SortKey.document⟩ : Address)) = addresses
  have hkeys (a : Address) : a ∈ (BatchRequest.extend {} c.documentsTable addresses).keys
      c.documentsTable ↔ a ∈ addresses := by
    simp [BatchRequest.mem_keys, BatchRequest.extend]
  have hmem (d : Document) :
      d ∈ (((Batch.holdings T (BatchRequest.extend {} c.documentsTable addresses)).lookup
        c.documentsTable).getD []).filterMap Row.document? ↔
          ∃ id ∈ ids, T.document? t id = some d := by
    rw [Batch.getD_lookup_holdings, hcollection, List.filterMap_filterMap, List.mem_filterMap]
    constructor
    · rintro ⟨a, ha, hd⟩
      rw [hkeys, ← haddresses] at ha
      obtain ⟨id, hid, rfl⟩ := List.mem_map.1 ha
      exact ⟨id, hid, hd⟩
    · rintro ⟨id, hid, hd⟩
      refine ⟨_, (hkeys _).2 ?_, hd⟩
      rw [← haddresses]
      exact List.mem_map_of_mem hid
  simp only [Batch.read_eq hmax, Except.map]
  refine congrArg Except.ok (List.filterMap_congr fun id hid => ?_)
  exact find?_of_read h (mem_firsts.1 hid) fun d => List.mem_reverse.trans (hmem d)

theorem lookUp_batches (hmax : 0 < T.maxBatchSize) (ids : List String) :
    (T.lookUp c t ids).2 = { T with
      batchCalls := T.batchCalls +
        (firsts ids).length ⌈/⌉ min (max c.batchSize 1) T.maxBatchSize } := by
  let place (id : String) : Address := ⟨Partition.document t id, SortKey.document⟩
  have hplace : Function.Injective place := fun id id' h =>
    Partition.document_injective (congrArg Address.partition h)
  have hcard : (ids.map place).toFinset.card = (firsts ids).length := by
    have hsame : (ids.map place).toFinset = ((firsts ids).map place).toFinset := by
      ext key
      simp
    rw [hsame, List.toFinset_card_of_nodup ((nodup_firsts ids).map hplace), List.length_map]
  unfold lookUp
  simp only [Batch.read_eq hmax, Batch.chunkSize_eq hmax]
  rw [Batch.length_calls_extend (by omega), hcard]

theorem read_of_lookUp {ids : List String} {documents : List Document}
    (h : (T.lookUp c t ids).1 = .ok documents) :
    ∃ found, (Batch.read c.batchSize (BatchRequest.extend {} c.documentsTable
        (ids.map fun id => ⟨Partition.document t id, SortKey.document⟩)) T).1 = .ok found ∧
      documents = (firsts ids).filterMap fun id => (((found.lookup c.documentsTable).getD
        []).filterMap Row.document?).reverse.find? (·.id = id) := by
  unfold lookUp at h
  simp only at h
  cases hread : (Batch.read c.batchSize (BatchRequest.extend {} c.documentsTable
      (ids.map fun id => (⟨Partition.document t id, SortKey.document⟩ : Address))) T).1 with
  | error e =>
    rw [hread] at h
    cases h
  | ok found =>
    rw [hread] at h
    exact ⟨found, rfl, (Except.ok.inj h).symm⟩

theorem id_mem_of_lookUp {ids : List String} {documents : List Document}
    (h : (T.lookUp c t ids).1 = .ok documents) :
    ∀ d ∈ documents, d.id ∈ ids := by
  obtain ⟨found, -, rfl⟩ := read_of_lookUp h
  intro d hd
  obtain ⟨id, hid, hfind⟩ := List.mem_filterMap.1 hd
  have hown : d.id = id := by simpa using List.find?_some hfind
  rw [hown]
  exact mem_firsts.1 hid

/-- What a table has besides its rows and the count of batches. -/
def settings (T : Table) : String × Nat × List (String × Rows) := (T.name, T.maxBatchSize, T.others)

@[simp] theorem settings_put (T : Table) (row : Row) : (T.put row).settings = T.settings := rfl

@[simp] theorem settings_erase (T : Table) (a : Address) : (T.erase a).settings = T.settings := rfl

@[simp] theorem settings_foldl {α : Type} {step : Table → α → Table}
    (h : ∀ T a, (step T a).settings = T.settings) (as : List α) (T : Table) :
    (as.foldl step T).settings = T.settings := by
  induction as generalizing T with
  | nil => rfl
  | cons a as ih => rw [List.foldl_cons, ih, h]

@[simp] theorem settings_putAll (T : Table) (rows : List Row) :
    (T.putAll rows).settings = T.settings :=
  settings_foldl settings_put rows T

@[simp] theorem settings_eraseAll (T : Table) (rows : List Row) :
    (T.eraseAll rows).settings = T.settings := by
  rw [eraseAll, settings_foldl]
  exact fun _ _ => rfl

@[simp] theorem settings_move (T : Table) (moves : List (Address × Row)) :
    (T.move moves).settings = T.settings := by
  rw [move, settings_foldl]
  exact fun _ _ => rfl

@[simp] theorem settings_saved (T : Table) (d : Document) : (T.saved t d).settings = T.settings := by
  simp only [saved, cleared_eq, indexPath, settings_put, settings_putAll, settings_eraseAll]

@[simp] theorem settings_refreshComposites (T : Table) (id : String) (keys : List String) :
    (T.refreshComposites c t id keys).settings = T.settings :=
  settings_foldl (fun T group => by simp only [refreshGroup, settings_putAll, settings_eraseAll]) _ T

@[simp] theorem settings_setAttributes (T : Table) (id : String) (attributes : List Attribute) :
    (T.setAttributes t id attributes).settings = T.settings :=
  settings_foldl (fun T key => by simp only [setAttribute, settings_putAll, settings_eraseAll]) _ T

@[simp] theorem settings_setTags (T : Table) (id : String) (tags : List Tag) :
    (T.setTags t id tags).settings = T.settings :=
  settings_foldl (fun T tag => by simp only [setTag, settings_putAll, settings_eraseAll]) tags T

end Table

theorem Operation.settings_effect (c : Config) (t : Tenant) (op : Operation) (T : Table) :
    (op.effect c t T).settings = T.settings := by
  cases op with
  | saveDocument d =>
    simp only [effect]
    split <;> simp
  | deleteDocument id soft =>
    simp only [effect]
    split
    · rfl
    · refine Table.settings_foldl (fun T id => ?_) _ T
      cases soft <;> simp [Table.softDelete]
  | restoreDocument id =>
    simp only [effect]
    split
    · rfl
    · split
      · simp [Table.indexPaths, Table.indexPath]
      · rfl
  | addTags id tags =>
    simp only [effect]
    split <;> simp
  | deleteTag id key => simp [effect]
  | setAttributes id attributes =>
    simp only [effect]
    split <;> simp [Table.attributesSet]
  | deleteAttribute id key =>
    simp only [effect, Table.attributeDeleted]
    split <;> simp
  | deleteEmptyFolder path =>
    simp only [effect]
    split <;> rfl
  | findDocument | findDocuments | findDocumentVersion | listDocumentVersions | findChildDocuments
  | listDocumentsByDate | listDeletedDocuments | findTags | findTag | searchTags | findAttributes
  | findAttribute | search | listFolder | folderOfDocument => rfl

theorem Store.settings_run (c : Config) (s : Store) (requests : List Request) :
    (run c s requests).2.table.settings = s.table.settings :=
  run_induction (I := fun T => T.settings = s.table.settings)
    (fun r _ T _ hT => (r.operation.settings_effect c r.tenant T).trans hT) rfl

namespace Store

variable {t : Tenant}

/-- Asking for many documents is never refused and finds what asking for each of them finds, in the
order of asking and each document once, with as few batches as the limits allow. -/
theorem findDocuments_eq_each (c : Config) {maxBatchSize : Nat} (hmax : 0 < maxBatchSize)
    (clock : Clock) {requests : List Request} (hrequests : ∀ r ∈ requests, r.tenant = t)
    (ids : List String) :
    let s := (run c (fresh c.documentsTable maxBatchSize clock) requests).2
    let batches := ids.eraseDups.length ⌈/⌉ min (max c.batchSize 1) maxBatchSize
    let T : Table := { s.table with batchCalls := s.table.batchCalls + batches }
    ∃ found : String → Option Document,
      (∀ id, (findDocument t id).run s = (.ok (found id), s)) ∧
      (findDocuments c t ids).run s =
        (.ok (ids.eraseDups.filterMap found), { s with table := T }) := by
  intro s batches T
  have hkeeps : s.table.Keeps t :=
    (filedBy_run (Tenant.apart_of_eq t) hrequests (filedBy_fresh _ _ clock _)).keeps
      fun u hu => Tenant.apart_of_eq t t u rfl hu
  have hsettings : s.table.settings = (fresh c.documentsTable maxBatchSize clock).table.settings :=
    settings_run c _ requests
  have hname : s.table.name = c.documentsTable := congrArg (fun x => x.1) hsettings
  have hlimit : s.table.maxBatchSize = maxBatchSize := congrArg (fun x => x.2.1) hsettings
  have hpos : 0 < s.table.maxBatchSize := hlimit ▸ hmax
  refine ⟨s.table.document? t, fun id => rfl, ?_⟩
  rw [run_findDocuments, Table.lookUp_eq hkeeps hname hpos, Table.lookUp_batches hpos,
    ← eraseDups_eq_firsts]
  simp only [T, batches, hlimit]

def leafletsFiled : List Request :=
  (["p", "q", "r"].map fun id => ⟨.default, ⟨0⟩, .saveDocument
    { id, userId := "u", inserted := ⟨0, 0⟩, modified := ⟨0, 0⟩ }⟩) ++
  [⟨.default, ⟨1⟩, .deleteDocument "q" true⟩]

theorem leaflets_found :
    let c : Config := { batchSize := 3 }
    let s := (run c (fresh "documents" 2 ⟨0⟩) leafletsFiled).2
    let ids := ["r", "x", "p", "r", "q", "p"]
    0 < 2 ∧ (∀ r ∈ leafletsFiled, r.tenant = .default) ∧
    ∃ found : String → Option Document,
      (∀ id, (findDocument .default id).run s = (.ok (found id), s)) ∧
      ((findDocuments c .default ids).run s).1 = .ok (ids.eraseDups.filterMap found) ∧
      (ids.eraseDups.filterMap found).map Document.id = ["r", "p"] ∧
      ((findDocuments c .default ids).run s).2.table.batchCalls = s.table.batchCalls + 2 := by
  intro c s ids
  have htenant : ∀ r ∈ leafletsFiled, r.tenant = .default := by decide
  obtain ⟨found, heach, hall⟩ := findDocuments_eq_each c Nat.two_pos ⟨0⟩ htenant ids
  have hfound : found = s.table.document? .default := funext fun id =>
    Except.ok.inj (congrArg Prod.fst (heach id)).symm
  have hfew : ids.eraseDups.length ⌈/⌉ min (max c.batchSize 1) 2 = 2 := by decide +kernel
  refine ⟨Nat.two_pos, htenant, found, heach, congrArg Prod.fst hall, ?_, ?_⟩
  · rw [hfound]
    decide +kernel
  · rw [← hfew, hall]

end Store

end Cabinet
