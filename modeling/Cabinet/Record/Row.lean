import Cabinet.Record.Attribute
import Cabinet.Record.Document
import Cabinet.Record.FolderNode
import Cabinet.Record.Tag

/-! The rows of a table: a record and the keys it is found under. -/

namespace Cabinet

inductive Record where
  | document (d : Document)
  | tag (t : Tag)
  | attribute (a : Attribute)
  | folderNode (n : FolderNode)
  deriving DecidableEq

inductive RecordKind where
  | document
  | tag
  | attribute
  | folderNode
  deriving DecidableEq

def RecordKind.name : RecordKind → String
  | .document => "Document"
  | .tag => "Tag"
  | .attribute => "Attribute"
  | .folderNode => "FolderNode"

def Record.kind : Record → RecordKind
  | .document _ => .document
  | .tag _ => .tag
  | .attribute _ => .attribute
  | .folderNode _ => .folderNode

structure Row where
  key : RowKey
  record : Record
  deriving DecidableEq

namespace Row

def address (row : Row) : Address := row.key.primary

def document? (row : Row) : Option Document :=
  match row.record with
  | .document d => some d
  | _ => none

def tag? (row : Row) : Option Tag :=
  match row.record with
  | .tag t => some t
  | _ => none

def attribute? (row : Row) : Option Attribute :=
  match row.record with
  | .attribute a => some a
  | _ => none

def folderNode? (row : Row) : Option FolderNode :=
  match row.record with
  | .folderNode n => some n
  | _ => none

def documentId? (row : Row) : Option String :=
  match row.record with
  | .document d => some d.id
  | .tag t => some t.documentId
  | .attribute a => some a.documentId
  | .folderNode n => n.documentId

end Row

def Document.liveRow (d : Document) : Row := ⟨d.liveKey, .document d⟩

def Document.archivedRow (d : Document) : Row := ⟨d.versionKey d.currentVersion, .document d⟩

def Tag.rows (t : Tenant) (tag : Tag) : List Row :=
  (tag.rowKeys t).map fun key => ⟨key, .tag tag⟩

def Attribute.row (t : Tenant) (a : Attribute) : Row := ⟨a.rowKey t, .attribute a⟩

def FolderNode.row (t : Tenant) (node : FolderNode) : Row := ⟨node.rowKey t, .folderNode node⟩

end Cabinet
