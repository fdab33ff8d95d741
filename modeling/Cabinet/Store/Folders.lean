import Cabinet.Folder.Tree
import Cabinet.Page.Paging
import Cabinet.Table.Basic

/-! The folder tree in a table. -/

namespace Cabinet.Table

def indexPath (t : Table) (tenant : Tenant) (id : String) (path : Option String) : Table :=
  t.putAll (Folder.rowsOfPath tenant id path)

def indexPaths (t : Table) (tenant : Tenant) (documents : List Document) : Table :=
  documents.foldl (fun t d => t.indexPath tenant d.id d.path) t

def removeLeaf (t : Table) (tenant : Tenant) (id path : String) : Table :=
  match Folder.leafRow? tenant id path with
  | some leaf => t.erase leaf.address
  | none => t

def hasLeaf (t : Table) (tenant : Tenant) (id path : String) : Bool :=
  ((Folder.leafRow? tenant id path).bind fun leaf => t.get? leaf.address).isSome

def folderPage (t : Table) (tenant : Tenant) (path : String) (limit : Nat)
    (start : Option PageKey) : List FolderNode × Option PageKey :=
  let page := t.query
    { index := .primary, partition := Path.folderKey tenant path, limit, start }
  (page.rows.filterMap Folder.ofRow?, page.last)

def leafLookup (t : Table) (partition : String) : Option Row :=
  (t.queryAll
    { index := .first, partition, condition := some (.equals SortKey.leafLookup) }).head?

def leaf? (t : Table) (tenant : Tenant) (id : String) : Option Row :=
  t.leafLookup (Partition.leaf tenant id)

def deletedLeaf? (t : Table) (tenant : Tenant) (id : String) : Option Row :=
  t.leafLookup (SoftDelete.markKey tenant (Partition.leaf tenant id))

end Cabinet.Table

namespace Cabinet.Store

def listFolder (c : Config) (t : Tenant) (path : String) (request : PageRequest) :
    Action (Page FolderNode) := do
  let cursor ← Paging.resolve c request
  let table ← Action.table
  let (nodes, last) := table.folderPage t path cursor.token.limit cursor.token.start
  let (next, previous) ← Paging.complete c cursor last
  return { items := nodes, next, previous }

def folderOfDocument (t : Tenant) (id : String) : Action (Option FolderNode) := do
  return ((← Action.table).leaf? t id).bind Folder.ofRow?

/-- Removes a folder that holds nothing. Its row may lack the mark of a folder. -/
def deleteEmptyFolder (t : Tenant) (path : String) : Action Unit := do
  match Path.split? path with
  | none => throw (.invalid [⟨"path", "the root folder cannot be deleted"⟩])
  | some (parent, name) =>
    let table ← Action.table
    let held := table.query { index := .primary, partition := Path.folderKey t path, limit := 1 }
    if held.rows ≠ [] then throw (.invalid [⟨"path", "folder is not empty"⟩])
    let marked : Address := ⟨Path.folderKey t parent, SortKey.folder name⟩
    let unmarked : Address := ⟨Path.folderKey t parent, name⟩
    if (table.get? marked).isSome then Action.write (·.erase marked)
    else if (table.get? unmarked).isSome then Action.write (·.erase unmarked)
    else throw (.notFound .folderNode (Path.normalize path))

end Cabinet.Store
