import Cabinet.Distinct
import Cabinet.Page.Paging
import Cabinet.Store.Folders
import Cabinet.Store.Versions
import Cabinet.Table.Batch

/-! Saving, finding and listing documents. -/

namespace Cabinet

def Document.issues (d : Document) : List Issue :=
  (if Text.allBlank d.id then [⟨"documentId", "documentId is required"⟩]
    else onlyIf ('/' ∈ d.id.toList) ⟨"documentId", "documentId must not contain '/'"⟩) ++
  onlyIf (Text.allBlank d.userId) ⟨"userId", "userId is required"⟩ ++
  onlyIf (d.parent = some d.id) ⟨"belongsToDocumentId", "a document cannot belong to itself"⟩

namespace Store

def requireDocument (t : Tenant) (id : String) : Action Document := do
  match (← Action.table).document? t id with
  | some d => return d
  | none => throw (.notFound .document id)

/-- Makes room for a document: the live one is archived, and its leaf is removed when the path
changes. The new document takes the next version number and keeps the date of insertion. -/
def supersede (t : Tenant) (d : Document) : Action Document := do
  match (← Action.table).document? t d.id with
  | none => return d
  | some live =>
    Action.write (·.archive live)
    match live.path with
    | some path => if live.path ≠ d.path then Action.write (·.removeLeaf t d.id path)
    | none => pure ()
    return { d with version := some (live.currentVersion + 1), inserted := live.inserted }

def saveDocument (t : Tenant) (d : Document) : Action Document := do
  Action.check d.issues
  match d.parent with
  | some parent => let _ ← requireDocument t parent
  | none => pure ()
  let d ← supersede t { d with tenant := t }
  Action.write (·.indexPath t d.id d.path)
  Action.write (·.put d.liveRow)
  return d

def findDocument (t : Tenant) (id : String) : Action (Option Document) := do
  return (← Action.table).document? t id

/-- The documents with the given ids in the order of asking, each once. They are read in batches
from the collection of documents. -/
def findDocuments (c : Config) (t : Tenant) (ids : List String) : Action (List Document) := do
  let addresses := ids.map fun id => (⟨Partition.document t id, SortKey.document⟩ : Address)
  let request := BatchRequest.extend {} c.documentsTable addresses
  let (result, table) := Batch.read c.batchSize request (← Action.table)
  Action.write fun _ => table
  let found ← Action.ofExcept result
  let documents := ((found.lookup c.documentsTable).getD []).filterMap Row.document?
  return (firsts ids).filterMap fun id => documents.reverse.find? (·.id = id)

def findDocumentVersion (t : Tenant) (id : String) (n : UInt32) : Action (Option Document) := do
  let table ← Action.table
  match table.document? t id with
  | some d => return if d.currentVersion = n then some d else table.version? t id n
  | none => return table.version? t id n

def listDocumentVersions (t : Tenant) (id : String) : Action (List Document) := do
  return (← Action.table).versions t id

def findChildDocuments (t : Tenant) (parent : String) : Action (List Document) := do
  return (← Action.table).children t parent

def documentsOnly (page : Page Row) : Page Document :=
  page.withItems (firstsBy Document.id (page.items.filterMap Row.document?))

def listDocumentsByDate (c : Config) (t : Tenant) (day : Day) (request : PageRequest) :
    Action (Page Document) := do
  let q : Query := { index := .first, partition := Partition.day t day.text }
  return documentsOnly (← Paging.query c q request)

end Store

end Cabinet
