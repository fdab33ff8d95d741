import Cabinet.Key.Partition
import Cabinet.Key.RowKey

/-! Nodes of the folder tree and the keys of their rows. -/

namespace Cabinet

inductive NodeKind where
  | folder
  | leaf
  deriving DecidableEq

structure FolderNode where
  kind : NodeKind
  name : String
  path : String
  documentId : Option String := none
  parentKey : String
  deriving DecidableEq

namespace FolderNode

/-- Leaves of one name are told apart by their documents. Folders sort before leaves. -/
def sortKey (node : FolderNode) : String :=
  match node.kind, node.documentId with
  | .leaf, some id => SortKey.leaf node.name ++ delimiter ++ id
  | .leaf, none => SortKey.leaf node.name
  | .folder, _ => SortKey.folder node.name

def rowKey (t : Tenant) (node : FolderNode) : RowKey where
  primary := ⟨node.parentKey, node.sortKey⟩
  first := match node.kind, node.documentId with
    | .leaf, some id => some ⟨Partition.leaf t id, SortKey.leafLookup⟩
    | _, _ => none

end FolderNode

end Cabinet
