import Cabinet.Proofs.Table.Batches
import Cabinet.Store.Operation

/-! What requests do to the table. Main statement: the table after a request is a function of the
table before, whatever the clock and the page tokens, apart from the count of batches. -/

namespace Cabinet

namespace Action

variable {α β : Type}

theorem ext {a b : Action α} (h : ∀ s : Store, a.run s = b.run s) : a = b := funext h

theorem run_pure (a : α) (s : Store) : (pure a : Action α).run s = (.ok a, s) := rfl

theorem run_table (s : Store) : Action.table.run s = (.ok s.table, s) := rfl

theorem run_get (s : Store) : (get : Action Store).run s = (.ok s, s) := rfl

theorem run_write (change : Table → Table) (s : Store) :
    (Action.write change).run s = (.ok (), { s with table := change s.table }) := rfl

theorem run_check (issues : List Issue) (s : Store) : (Action.check issues).run s =
    (if issues = [] then .ok () else .error (.invalid issues), s) := by
  unfold check
  split <;> rfl

theorem run_ofExcept (x : Except Error α) (s : Store) :
    (Action.ofExcept x).run s = (x, s) := by
  cases x <;> rfl

theorem run_bind (a : Action α) (f : α → Action β) (s : Store) :
    (a >>= f).run s =
      match a.run s with
      | (.ok x, s') => (f x).run s'
      | (.error e, s') => (.error e, s') := by
  show (ExceptT.bindCont f (a s).1) (a s).2 = _
  unfold ExceptT.bindCont
  show _ = match a s with
    | (.ok x, s') => (f x).run s'
    | (.error e, s') => (.error e, s')
  rcases a s with ⟨x | x, s'⟩ <;> rfl

end Action

namespace Table

def saveFault? (T : Table) (t : Tenant) (d : Document) : Option Error :=
  if d.issues ≠ [] then some (.invalid d.issues)
  else match d.parent with
    | some parent =>
      if (T.document? t parent).isSome then none else some (.notFound .document parent)
    | none => none

def successor (T : Table) (t : Tenant) (d : Document) : Document :=
  match T.document? t d.id with
  | some live =>
    { d with tenant := t, version := some (live.currentVersion + 1), inserted := live.inserted }
  | none => { d with tenant := t }

def cleared (T : Table) (t : Tenant) (d : Document) : Table :=
  match T.document? t d.id with
  | some live =>
    match live.path with
    | some path =>
      if live.path ≠ d.path then (T.archive live).removeLeaf t d.id path else T.archive live
    | none => T.archive live
  | none => T

def saved (T : Table) (t : Tenant) (d : Document) : Table :=
  ((T.cleared t d).indexPath t d.id d.path).put (T.successor t d).liveRow

end Table

namespace Store

theorem run_requireDocument (t : Tenant) (id : String) (s : Store) :
    (requireDocument t id).run s =
      (match s.table.document? t id with
        | some d => .ok d
        | none => .error (.notFound .document id), s) := by
  unfold requireDocument
  rw [Action.run_bind, Action.run_table]
  simp only
  cases s.table.document? t id <;> rfl

theorem run_supersede (t : Tenant) (d : Document) (s : Store) :
    (supersede t { d with tenant := t }).run s =
      (.ok (s.table.successor t d), { s with table := s.table.cleared t d }) := by
  unfold supersede Table.successor Table.cleared
  rw [Action.run_bind, Action.run_table]
  simp only
  cases s.table.document? t d.id with
  | none => rfl
  | some live =>
    simp only [Action.run_bind, Action.run_write]
    cases hpath : live.path with
    | none => rfl
    | some path =>
      by_cases hne : some path = d.path
      · simp only [hne, ne_eq, not_true_eq_false, if_false]
        rfl
      · simp only [hne, ne_eq, not_false_eq_true, if_true]
        rfl

theorem run_saveDocument (t : Tenant) (d : Document) (s : Store) :
    (saveDocument t d).run s =
      match s.table.saveFault? t d with
      | some e => (.error e, s)
      | none => (.ok (s.table.successor t d), { s with table := s.table.saved t d }) := by
  have hrest (s : Store) : (do
      let d ← supersede t { d with tenant := t }
      Action.write (·.indexPath t d.id d.path)
      Action.write (·.put d.liveRow)
      return d : Action Document).run s =
        (.ok (s.table.successor t d), { s with table := s.table.saved t d }) := by
    simp only [Action.run_bind, run_supersede, Action.run_write, Action.run_pure]
    unfold Table.saved Table.successor
    split <;> rfl
  unfold saveDocument Table.saveFault?
  -- the document to be saved is named, so that the cases on the parent leave it alone
  generalize ({ d with tenant := t } : Document) = d' at hrest ⊢
  rw [Action.run_bind, Action.run_check]
  by_cases hissues : d.issues = []
  · simp only [hissues, if_true, ne_eq, not_true_eq_false, if_false]
    cases d.parent with
    | none => exact hrest s
    | some parent =>
      simp only
      rw [Action.run_bind, run_requireDocument]
      cases s.table.document? t parent with
      | none => rfl
      | some _ => exact hrest s
  · simp only [hissues, if_false, ne_eq, not_false_eq_true, if_true]

end Store

namespace Table

def restorable (T : Table) (t : Tenant) (id : String) : List Row :=
  (T.deletedFamily t id).flatMap (T.deletedRows t)

def restorableDocuments (T : Table) (t : Tenant) (id : String) : List Document :=
  (T.deletedFamily t id).flatMap (T.deletedDocuments t)

end Table

namespace Store

theorem run_deleteDocument (t : Tenant) (id : String) (soft : Bool) (s : Store) :
    (deleteDocument t id soft).run s =
      if (s.table.document? t id).isNone then (.ok false, s)
      else (.ok true, { s with table := s.table.remove t soft (s.table.family t id) }) := by
  unfold deleteDocument
  rw [Action.run_bind, Action.run_table]
  simp only
  split <;> rfl

theorem run_restoreDocument (t : Tenant) (id : String) (s : Store) :
    (restoreDocument t id).run s =
      if (s.table.document? t id).isSome then (.error (.documentExists id), s)
      else if s.table.restorable t id = [] then (.ok false, s)
      else match Table.unmarkedMoves t (s.table.restorable t id) with
        | .ok moves => (.ok true, { s with
            table := (s.table.move moves).indexPaths t (s.table.restorableDocuments t id) })
        | .error fault => (.error (.unmarked fault), s) := by
  unfold restoreDocument
  rw [Action.run_bind, Action.run_table]
  simp only
  by_cases hlive : (s.table.document? t id).isSome
  · simp only [hlive, if_true]
    rfl
  · simp only [hlive, Bool.false_eq_true, if_false]
    by_cases hrows : s.table.restorable t id = []
    · unfold Table.restorable at hrows
      unfold Table.restorable
      simp only [hrows, if_true]
      rfl
    · unfold Table.restorable at hrows
      unfold Table.restorable
      simp only [hrows, if_false]
      rw [Action.run_bind]
      unfold restoreRows
      cases Table.unmarkedMoves t ((s.table.deletedFamily t id).flatMap (s.table.deletedRows t)) <;>
        rfl

end Store

namespace Table

def documentVersion? (T : Table) (t : Tenant) (id : String) (n : UInt32) : Option Document :=
  match T.document? t id with
  | some d => if d.currentVersion = n then some d else T.version? t id n
  | none => T.version? t id n

def metadataFault? (T : Table) (t : Tenant) (id : String) (issues : List Issue) : Option Error :=
  if issues ≠ [] then some (.invalid issues)
  else if (T.document? t id).isSome then none
  else some (.notFound .document id)

def attributesSet (T : Table) (c : Config) (t : Tenant) (id : String)
    (attributes : List Attribute) : Table :=
  let attributes := attributes.map fun a => { a with documentId := id }
  (T.setAttributes t id attributes).refreshComposites c t id (attributeKeys attributes)

def attributeDeleted (T : Table) (c : Config) (t : Tenant) (id key : String) : Table :=
  let rows := T.attributeRows t id key
  if rows ≠ [] then (T.eraseAll rows).refreshComposites c t id [key] else T.eraseAll rows

/-- Where the row of a folder that holds nothing stands. -/
def emptyFolder (T : Table) (t : Tenant) (path : String) : Except Error Address :=
  match Path.split? path with
  | none => .error (.invalid [⟨"path", "the root folder cannot be deleted"⟩])
  | some (parent, name) =>
    let held := T.query { index := .primary, partition := Path.folderKey t path, limit := 1 }
    let marked : Address := ⟨Path.folderKey t parent, SortKey.folder name⟩
    let unmarked : Address := ⟨Path.folderKey t parent, name⟩
    if held.rows ≠ [] then .error (.invalid [⟨"path", "folder is not empty"⟩])
    else if (T.get? marked).isSome then .ok marked
    else if (T.get? unmarked).isSome then .ok unmarked
    else .error (.notFound .folderNode (Path.normalize path))

end Table

namespace Store

theorem run_findDocumentVersion (t : Tenant) (id : String) (n : UInt32) (s : Store) :
    (findDocumentVersion t id n).run s =
      (.ok (s.table.documentVersion? t id n), s) := by
  unfold findDocumentVersion Table.documentVersion?
  rw [Action.run_bind, Action.run_table]
  simp only
  cases s.table.document? t id with
  | none => rfl
  | some d =>
    simp only
    split <;> rfl

theorem run_addTags (t : Tenant) (id : String) (tags : List Tag) (s : Store) :
    (addTags t id tags).run s =
      match s.table.metadataFault? t id (tags.flatMap Tag.issues) with
      | some e => (.error e, s)
      | none => (.ok (), { s with table := s.table.setTags t id tags }) := by
  unfold addTags Table.metadataFault?
  rw [Action.run_bind, Action.run_check]
  by_cases hissues : tags.flatMap Tag.issues = []
  · simp only [hissues, if_true, ne_eq, not_true_eq_false, if_false]
    rw [Action.run_bind, run_requireDocument]
    cases s.table.document? t id <;> rfl
  · simp only [hissues, if_false, ne_eq, not_false_eq_true, if_true]

theorem run_deleteTag (t : Tenant) (id key : String) (s : Store) :
    (deleteTag t id key).run s =
      (.ok (decide (s.table.tagRows t id key ≠ [])),
        { s with table := s.table.eraseAll (s.table.tagRows t id key) }) := rfl

theorem run_setAttributes (c : Config) (t : Tenant) (id : String) (attributes : List Attribute)
    (s : Store) :
    (setAttributes c t id attributes).run s =
      match s.table.metadataFault? t id (attributes.flatMap Attribute.issues) with
      | some e => (.error e, s)
      | none => (.ok (), { s with table := s.table.attributesSet c t id attributes }) := by
  unfold setAttributes Table.metadataFault?
  rw [Action.run_bind, Action.run_check]
  by_cases hissues : attributes.flatMap Attribute.issues = []
  · simp only [hissues, if_true, ne_eq, not_true_eq_false, if_false]
    rw [Action.run_bind, run_requireDocument]
    cases s.table.document? t id <;> rfl
  · simp only [hissues, if_false, ne_eq, not_false_eq_true, if_true]

theorem run_deleteAttribute (c : Config) (t : Tenant) (id key : String) (s : Store) :
    (deleteAttribute c t id key).run s =
      (.ok (s.table.attributeRows t id key).length,
        { s with table := s.table.attributeDeleted c t id key }) := by
  unfold deleteAttribute Table.attributeDeleted
  rw [Action.run_bind, Action.run_table]
  simp only
  rw [Action.run_bind, Action.run_write]
  by_cases hrows : s.table.attributeRows t id key = []
  · simp only [hrows, ne_eq, not_true_eq_false, if_false]
    rfl
  · simp only [hrows, ne_eq, not_false_eq_true, if_true]
    rfl

theorem run_deleteEmptyFolder (t : Tenant) (path : String) (s : Store) :
    (deleteEmptyFolder t path).run s =
      match s.table.emptyFolder t path with
      | .ok a => (.ok (), { s with table := s.table.erase a })
      | .error e => (.error e, s) := by
  unfold deleteEmptyFolder Table.emptyFolder
  cases Path.split? path with
  | none => rfl
  | some split =>
    simp only
    rw [Action.run_bind, Action.run_table]
    simp only
    by_cases hheld : (s.table.query
        { index := .primary, partition := Path.folderKey t path, limit := 1 }).rows = []
    · simp only [hheld, ne_eq, not_true_eq_false, if_false]
      split
      · rfl
      · split <;> rfl
    · simp only [hheld, ne_eq, not_false_eq_true, if_true]
      rfl

end Store

def Table.lookUp (T : Table) (c : Config) (t : Tenant) (ids : List String) :
    Except Error (List Document) × Table :=
  let addresses := ids.map fun id => (⟨Partition.document t id, SortKey.document⟩ : Address)
  let (result, table) := Batch.read c.batchSize (BatchRequest.extend {} c.documentsTable addresses) T
  (result.map fun found =>
    let documents := ((found.lookup c.documentsTable).getD []).filterMap Row.document?
    (firsts ids).filterMap fun id => documents.reverse.find? (·.id = id), table)

theorem Table.lookUp_table (T : Table) (c : Config) (t : Tenant) (ids : List String) :
    ∃ n, (T.lookUp c t ids).2 = { T with batchCalls := n } :=
  Batch.table_read _ _ _

theorem Store.run_findDocuments (c : Config) (t : Tenant) (ids : List String) (s : Store) :
    (Store.findDocuments c t ids).run s =
      ((s.table.lookUp c t ids).1, { s with table := (s.table.lookUp c t ids).2 }) := by
  unfold findDocuments Table.lookUp
  rw [Action.run_bind, Action.run_table]
  simp only
  rw [Action.run_bind, Action.run_write]
  simp only
  rw [Action.run_bind, Action.run_ofExcept]
  cases (Batch.read c.batchSize (BatchRequest.extend {} c.documentsTable
    (ids.map fun id => (⟨Partition.document t id, SortKey.document⟩ : Address))) s.table).1 <;> rfl

theorem Store.listFolder_eq (c : Config) (t : Tenant) (path : String) (request : PageRequest) :
    Store.listFolder c t path request = (do
      let page ← Paging.query c { index := .primary, partition := Path.folderKey t path } request
      return page.withItems (page.items.filterMap Folder.ofRow?)) := by
  apply Action.ext
  intro s
  unfold listFolder Paging.query
  simp only [Action.run_bind]
  rcases (Paging.resolve c request).run s with ⟨e | cursor, s'⟩
  · rfl
  · simp only [Action.run_table, Table.folderPage]
    rcases ExceptT.run (Paging.complete c cursor _) s' with ⟨e | links, s''⟩ <;> rfl

namespace Action

variable {α β : Type}

/-- An action that leaves the table alone, apart from the count of batches. -/
def OnlyReads (a : Action α) : Prop :=
  ∀ s : Store, ∃ n, (a.run s).2.table = { s.table with batchCalls := n }

theorem onlyReads_of_table {a : Action α} (h : ∀ s : Store, (a.run s).2.table = s.table) :
    a.OnlyReads :=
  fun s => ⟨s.table.batchCalls, h s⟩

theorem OnlyReads.bind {a : Action α} {f : α → Action β} (ha : a.OnlyReads)
    (hf : ∀ x, (f x).OnlyReads) : (a >>= f).OnlyReads := by
  intro s
  obtain ⟨n, hn⟩ := ha s
  rw [run_bind]
  rcases hrun : a.run s with ⟨e | x, s'⟩
  · rw [hrun] at hn
    exact ⟨n, hn⟩
  · rw [hrun] at hn
    obtain ⟨m, hm⟩ := hf x s'
    refine ⟨m, hm.trans ?_⟩
    simp only at hn
    rw [hn]

theorem onlyReads_pure (x : α) : (pure x : Action α).OnlyReads := onlyReads_of_table fun _ => rfl

theorem onlyReads_throw (e : Error) : (throw e : Action α).OnlyReads :=
  onlyReads_of_table fun _ => rfl

theorem onlyReads_table : Action.table.OnlyReads := onlyReads_of_table fun _ => rfl

theorem onlyReads_issue : Paging.issue.OnlyReads := onlyReads_of_table fun _ => rfl

theorem onlyReads_load (field : String) (id : TokenId) : (Paging.load field id).OnlyReads := by
  apply onlyReads_of_table
  intro s
  unfold Paging.load
  rw [run_bind, run_get]
  simp only
  split
  · rfl
  · split <;> rfl

theorem onlyReads_firstPage (limit : Nat) : (Paging.firstPage limit).OnlyReads :=
  onlyReads_issue.bind fun _ => onlyReads_pure _

theorem onlyReads_resolve (c : Config) (request : PageRequest) :
    (Paging.resolve c request).OnlyReads := by
  unfold Paging.resolve
  split
  · exact onlyReads_throw _
  · exact (onlyReads_load _ _).bind fun _ => onlyReads_pure _
  · apply (onlyReads_load _ _).bind
    intro token
    split
    · exact (onlyReads_load _ _).bind fun _ => onlyReads_pure _
    · exact onlyReads_firstPage _
  · exact onlyReads_firstPage _

theorem onlyReads_complete (c : Config) (cursor : Cursor) (last : Option PageKey) :
    (Paging.complete c cursor last).OnlyReads := by
  apply onlyReads_of_table
  intro s
  unfold Paging.complete
  cases last <;> cases cursor.stored <;> rfl

theorem onlyReads_query (c : Config) (q : Query) (request : PageRequest) :
    (Paging.query c q request).OnlyReads :=
  (onlyReads_resolve c request).bind fun _ => onlyReads_table.bind fun _ =>
    (onlyReads_complete c _ _).bind fun _ => onlyReads_pure _

theorem onlyReads_withItems {γ : Type} (c : Config) (q : Query) (request : PageRequest)
    (f : Page Row → γ) : (do return f (← Paging.query c q request) : Action γ).OnlyReads :=
  (onlyReads_query c q request).bind fun _ => onlyReads_pure _

theorem onlyReads_findDocuments (c : Config) (t : Tenant) (ids : List String) :
    (Store.findDocuments c t ids).OnlyReads := by
  intro s
  rw [Store.run_findDocuments]
  exact s.table.lookUp_table c t ids

theorem onlyReads_search (c : Config) (t : Tenant) (criteria : Criteria) (page : PageRequest) :
    (Store.search c t criteria page).OnlyReads := by
  unfold Store.search
  dsimp only
  split
  · exact onlyReads_of_table fun _ => rfl
  · split
    · exact (onlyReads_query _ _ _).bind fun _ =>
        (onlyReads_findDocuments _ _ _).bind fun _ => onlyReads_pure _
    · exact onlyReads_table.bind fun _ =>
        (onlyReads_findDocuments _ _ _).bind fun _ => onlyReads_pure _

end Action

namespace Operation

/-- The table after a request of tenant `t`. -/
def effect (c : Config) (t : Tenant) : Operation → Table → Table
  | saveDocument d, T => if (T.saveFault? t d).isSome then T else T.saved t d
  | deleteDocument id soft, T =>
    if (T.document? t id).isNone then T else T.remove t soft (T.family t id)
  | restoreDocument id, T =>
    if (T.document? t id).isSome ∨ T.restorable t id = [] then T
    else match Table.unmarkedMoves t (T.restorable t id) with
      | .ok moves => (T.move moves).indexPaths t (T.restorableDocuments t id)
      | .error _ => T
  | addTags id tags, T =>
    if (T.metadataFault? t id (tags.flatMap Tag.issues)).isSome then T else T.setTags t id tags
  | deleteTag id key, T => T.eraseAll (T.tagRows t id key)
  | setAttributes id attributes, T =>
    if (T.metadataFault? t id (attributes.flatMap Attribute.issues)).isSome then T
    else T.attributesSet c t id attributes
  | deleteAttribute id key, T => T.attributeDeleted c t id key
  | deleteEmptyFolder path, T =>
    match T.emptyFolder t path with
    | .ok a => T.erase a
    | .error _ => T
  | _, T => T

/-- Whatever else a store holds, what a request makes of the table depends on the table alone. -/
theorem table_perform (c : Config) (t : Tenant) (op : Operation) (s : Store) :
    ∃ n, ((op.perform c t).run s).2.table = { op.effect c t s.table with batchCalls := n } := by
  have exactly {a : Action Answer} {T : Table} (h : (a.run s).2.table = T) :
      ∃ n, (a.run s).2.table = { T with batchCalls := n } := ⟨T.batchCalls, h⟩
  have page {α : Type} {a : Action α} (h : a.OnlyReads) (f : α → Answer) :
      (do return f (← a) : Action Answer).OnlyReads := h.bind fun _ => Action.onlyReads_pure _
  cases op with
  | saveDocument d =>
    apply exactly
    simp only [perform, Action.run_bind, Store.run_saveDocument, effect]
    cases s.table.saveFault? t d <;> rfl
  | deleteDocument id soft =>
    apply exactly
    simp only [perform, Action.run_bind, Store.run_deleteDocument, effect]
    cases s.table.document? t id <;> rfl
  | restoreDocument id =>
    apply exactly
    simp only [perform, Action.run_bind, Store.run_restoreDocument, effect]
    cases s.table.document? t id with
    | some _ => rfl
    | none =>
      by_cases hrows : s.table.restorable t id = []
      · simp [hrows, Action.run_pure]
      · simp only [hrows, Option.isSome_none, Bool.false_eq_true, if_false, or_self]
        cases Table.unmarkedMoves t (s.table.restorable t id) <;> rfl
  | addTags id tags =>
    apply exactly
    simp only [perform, Action.run_bind, Store.run_addTags, effect]
    cases s.table.metadataFault? t id (tags.flatMap Tag.issues) <;> rfl
  | setAttributes id attributes =>
    apply exactly
    simp only [perform, Action.run_bind, Store.run_setAttributes, effect]
    cases s.table.metadataFault? t id (attributes.flatMap Attribute.issues) <;> rfl
  | deleteAttribute id key =>
    apply exactly
    simp only [perform, Action.run_bind, Store.run_deleteAttribute, effect]
    rfl
  | deleteEmptyFolder path =>
    apply exactly
    simp only [perform, Action.run_bind, Store.run_deleteEmptyFolder, effect]
    cases s.table.emptyFolder t path <;> rfl
  | findDocumentVersion id n =>
    apply exactly
    simp only [perform, Action.run_bind, Store.run_findDocumentVersion, effect]
    rfl
  | deleteTag | findDocument | listDocumentVersions | findChildDocuments | findTags | findTag
  | findAttributes | findAttribute | folderOfDocument => exact exactly rfl
  | findDocuments ids => exact page (Action.onlyReads_findDocuments c t ids) _ s
  | listDocumentsByDate day request =>
    have h : (Store.listDocumentsByDate c t day request).OnlyReads :=
      Action.onlyReads_withItems c _ request _
    exact page h _ s
  | listDeletedDocuments day request =>
    have h : (Store.listDeletedDocuments c t day request).OnlyReads :=
      Action.onlyReads_withItems c _ request _
    exact page h _ s
  | searchTags key value request =>
    have h : (Store.searchTags c t key value request).OnlyReads :=
      Action.onlyReads_withItems c _ request _
    exact page h _ s
  | search criteria request => exact page (Action.onlyReads_search c t criteria request) _ s
  | listFolder path request =>
    have h : (Store.listFolder c t path request).OnlyReads := by
      rw [Store.listFolder_eq]
      exact Action.onlyReads_withItems c _ request _
    exact page h _ s

end Operation

end Cabinet
