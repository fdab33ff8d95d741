import Cabinet.Folder.Path
import Cabinet.Record.Row

/-! The rows that a document's path puts into the folder tree, and reading nodes back from rows. -/

namespace Cabinet.Folder

def node (t : Tenant) (parents : List String) (name : String) : FolderNode where
  kind := .folder
  name
  path := Path.join (parents ++ [name])
  parentKey := Path.folderKey t (Path.join parents)

def leaf (t : Tenant) (id : String) (parents : List String) (name : String) : FolderNode where
  kind := .leaf
  name
  path := Path.join (parents ++ [name])
  documentId := some id
  parentKey := Path.folderKey t (Path.join parents)

/-- A folder for each name in front and the document's leaf for the last, unless that is a folder
too. -/
def chain (t : Tenant) (id : String) (endsInFolder : Bool) (parents : List String) :
    List String → List FolderNode
  | [] => []
  | [name] => [if endsInFolder then node t parents name else leaf t id parents name]
  | name :: next :: rest =>
    node t parents name :: chain t id endsInFolder (parents ++ [name]) (next :: rest)

def rowsOfPath (t : Tenant) (id : String) : Option String → List Row
  | none => []
  | some path => (chain t id (Path.namesFolder path) [] (Path.segments path)).map (·.row t)

def leafRow? (t : Tenant) (id path : String) : Option Row :=
  if Path.namesFolder path then none
  else (Path.segments path).getLast?.map fun name =>
    (leaf t id (Path.segments path).dropLast name).row t

def leafName (rest : String) (id : Option String) : String :=
  (id.bind fun id => (Text.dropBack? id rest).bind (Text.dropBack? delimiter)).getD rest

/-- The kind and name of a node. A sort key without a mark of its kind is all name, and then the
nodes with a document are the leaves. -/
def kindAndName (sort : String) (id : Option String) : NodeKind × String :=
  match Text.dropFront? (SortKey.folder "") sort with
  | some name => (.folder, name)
  | none =>
    match Text.dropFront? (SortKey.leaf "") sort with
    | some rest => (.leaf, leafName rest id)
    | none => (if id.isSome then .leaf else .folder, sort)

def readNode? (parentKey sort path : String) (id : Option String) : Option FolderNode :=
  let (kind, name) := kindAndName sort id
  if name = "" then none else some { kind, name, path, documentId := id, parentKey }

def ofRow? (row : Row) : Option FolderNode :=
  row.folderNode?.bind fun stored =>
    readNode? row.address.partition row.address.sort stored.path stored.documentId

end Cabinet.Folder
