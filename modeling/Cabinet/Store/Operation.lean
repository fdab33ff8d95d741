import Cabinet.Store.Lifecycle
import Cabinet.Store.Search
import Cabinet.Store.Tags

/-! The requests that tenants make of a store, their answers, and runs of them. -/

namespace Cabinet

inductive Operation where
  | saveDocument (d : Document)
  | findDocument (id : String)
  | findDocuments (ids : List String)
  | findDocumentVersion (id : String) (n : UInt32)
  | listDocumentVersions (id : String)
  | findChildDocuments (id : String)
  | listDocumentsByDate (day : Day) (page : PageRequest)
  | listDeletedDocuments (day : Day) (page : PageRequest)
  | deleteDocument (id : String) (soft : Bool)
  | restoreDocument (id : String)
  | addTags (id : String) (tags : List Tag)
  | findTags (id : String)
  | findTag (id key : String)
  | deleteTag (id key : String)
  | searchTags (key : String) (value : Option String) (page : PageRequest)
  | setAttributes (id : String) (attributes : List Attribute)
  | findAttributes (id : String)
  | findAttribute (id key : String)
  | deleteAttribute (id key : String)
  | search (criteria : Criteria) (page : PageRequest)
  | listFolder (path : String) (page : PageRequest)
  | folderOfDocument (id : String)
  | deleteEmptyFolder (path : String)

inductive Answer where
  | done
  | truth (b : Bool)
  | count (n : Nat)
  | document (d : Option Document)
  | documents (ds : List Document)
  | documentPage (page : Page Document)
  | tag (t : Option Tag)
  | tags (ts : List Tag)
  | tagPage (page : Page Tag)
  | attributes (as : List Attribute)
  | node (n : Option FolderNode)
  | nodePage (page : Page FolderNode)
  deriving DecidableEq

namespace Operation

def perform (c : Config) (t : Tenant) : Operation → Action Answer
  | saveDocument d => return .document (some (← Store.saveDocument t d))
  | findDocument id => return .document (← Store.findDocument t id)
  | findDocuments ids => return .documents (← Store.findDocuments c t ids)
  | findDocumentVersion id n => return .document (← Store.findDocumentVersion t id n)
  | listDocumentVersions id => return .documents (← Store.listDocumentVersions t id)
  | findChildDocuments id => return .documents (← Store.findChildDocuments t id)
  | listDocumentsByDate day page =>
    return .documentPage (← Store.listDocumentsByDate c t day page)
  | listDeletedDocuments day page =>
    return .documentPage (← Store.listDeletedDocuments c t day page)
  | deleteDocument id soft => return .truth (← Store.deleteDocument t id soft)
  | restoreDocument id => return .truth (← Store.restoreDocument t id)
  | addTags id tags => do Store.addTags t id tags; return .done
  | findTags id => return .tags (← Store.findTags t id)
  | findTag id key => return .tag (← Store.findTag t id key)
  | deleteTag id key => return .truth (← Store.deleteTag t id key)
  | searchTags key value page => return .tagPage (← Store.searchTags c t key value page)
  | setAttributes id attributes => do Store.setAttributes c t id attributes; return .done
  | findAttributes id => return .attributes (← Store.findAttributes t id)
  | findAttribute id key => return .attributes (← Store.findAttribute t id key)
  | deleteAttribute id key => return .count (← Store.deleteAttribute c t id key)
  | search criteria page => return .documentPage (← Store.search c t criteria page)
  | listFolder path page => return .nodePage (← Store.listFolder c t path page)
  | folderOfDocument id => return .node (← Store.folderOfDocument t id)
  | deleteEmptyFolder path => do Store.deleteEmptyFolder t path; return .done

end Operation

structure Request where
  tenant : Tenant
  clock : Clock
  operation : Operation

namespace Store

def step (c : Config) (store : Store) (r : Request) : Except Error Answer × Store :=
  (r.operation.perform c r.tenant).run { store with clock := r.clock }

def run (c : Config) (store : Store) : List Request → List (Except Error Answer) × Store
  | [] => ([], store)
  | r :: rest =>
    let (answer, store) := store.step c r
    let (answers, store) := run c store rest
    (answer :: answers, store)

end Store

end Cabinet
