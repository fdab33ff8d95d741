import Cabinet.Calendar.Reading
import Cabinet.Json.Reading
import Cabinet.Json.Shape
import Cabinet.Record.Row

/-! Reading rows from their stored JSON text. -/

namespace Cabinet

open Json (fields? optional? required? string? natural? case? tagged?)

def Address.ofJson? (v : Json) : Option Address := do
  let [partition, sort] ← fields? ["partition_key", "sort_key"] v | none
  return ⟨← required? string? partition, ← required? string? sort⟩

def RowKey.ofJson? (v : Json) : Option RowKey := do
  let [partition, sort, first, second] ←
    fields? ["partition_key", "sort_key", "gsi1", "gsi2"] v | none
  return {
    primary := ⟨← required? string? partition, ← required? string? sort⟩
    first := ← optional? Address.ofJson? first
    second := ← optional? Address.ofJson? second }

def Tenant.ofJson? : Json → Option Tenant
  | .object [("Site", .string id)] => some (.site id)
  | v => if case? v = some "Default" then some .default else none

def Instant.ofJson? (v : Json) : Option Instant := (string? v).bind Instant.read?

namespace Document

def fieldNames : List String :=
  ["document_id", "tenant", "path", "content_type", "content_length", "checksum", "user_id",
   "inserted_date", "last_modified_date", "belongs_to_document_id", "version"]

/-- A document that names no tenant is one of the default tenant. -/
def ofJson? (v : Json) : Option Document := do
  let [id, tenant, path, contentType, contentLength, checksum, userId, inserted, modified, parent,
    version] ← fields? fieldNames v | none
  return {
    id := ← required? string? id
    tenant := ← tenant.elim (some .default) Tenant.ofJson?
    path := ← optional? string? path
    contentType := ← optional? string? contentType
    contentLength := (← optional? (natural? UInt64.size) contentLength).map UInt64.ofNat
    checksum := ← optional? string? checksum
    userId := ← required? string? userId
    inserted := ← required? Instant.ofJson? inserted
    modified := ← required? Instant.ofJson? modified
    parent := ← optional? string? parent
    version := (← optional? (natural? UInt32.size) version).map UInt32.ofNat }

end Document

def emptyContent : Option Json → Option Unit
  | none | some .null => some ()
  | _ => none

/-- A case in front of its content: its word, or its place among all cases. -/
def caseInList? (cases : List String) : Json → Option String
  | .string s => some s
  | .natural n => cases[n.toNat]?
  | _ => none

/-- The case and the content of a value, one of the given cases. They are two fields, or a list of
the two. -/
def caseAndContent? (cases : List String) (v : Json) : Option (String × Option Json) := do
  match v with
  | .array [label, content] => return (← caseInList? cases label, some content)
  | .object _ =>
    let [label, content] ← fields? ["type", "value"] v | none
    return (← required? case? label, content)
  | _ => none

def TagValue.ofJson? (v : Json) : Option TagValue := do
  let (label, content) ← caseAndContent? ["none", "single", "many"] v
  match label with
  | "none" => do emptyContent content; return .keyOnly
  | "single" => do return .single (← required? string? content)
  | "many" => do return .many (← required? Json.strings? content)
  | _ => none

def TagKind.ofJson? (v : Json) : Option TagKind := do
  match ← case? v with
  | "System" => some .system
  | "UserDefined" => some .userDefined
  | _ => none

def Tag.ofJson? (v : Json) : Option Tag := do
  let [documentId, key, value, kind, userId, inserted] ←
    fields? ["document_id", "key", "value", "kind", "user_id", "inserted_date"] v | none
  return {
    documentId := ← required? string? documentId
    key := ← required? string? key
    value := ← required? TagValue.ofJson? value
    kind := ← required? TagKind.ofJson? kind
    userId := ← required? string? userId
    inserted := ← required? Instant.ofJson? inserted }

def AttributeValue.cases : List String :=
  ["string", "number", "boolean", "key_only", "classification", "entity", "relationship",
   "composite"]

def AttributeValue.ofJson? (v : Json) : Option AttributeValue := do
  let (label, content) ← caseAndContent? cases v
  match label with
  | "string" => do return .text (← required? string? content)
  | "number" => do return .number (← required? Json.number? content)
  | "boolean" => do return .boolean (← required? Json.boolean? content)
  | "key_only" => do emptyContent content; return .keyOnly
  | "classification" => do return .classification (← required? string? content)
  | "entity" => do return .entity (← required? string? content)
  | "relationship" => do return .relationship (← required? string? content)
  | "composite" => do return .composite (← required? string? content)
  | _ => none

def Attribute.ofJson? (v : Json) : Option Attribute := do
  let [documentId, key, value, userId, inserted] ←
    fields? ["document_id", "key", "value", "user_id", "inserted_date"] v | none
  return {
    documentId := ← required? string? documentId
    key := ← required? string? key
    value := ← required? AttributeValue.ofJson? value
    userId := ← required? string? userId
    inserted := ← required? Instant.ofJson? inserted }

def NodeKind.ofJson? (v : Json) : Option NodeKind := do
  match ← case? v with
  | "Folder" => some .folder
  | "Leaf" => some .leaf
  | _ => none

def FolderNode.ofJson? (v : Json) : Option FolderNode := do
  let [kind, name, path, documentId, parentKey] ←
    fields? ["kind", "name", "path", "document_id", "parent_key"] v | none
  return {
    kind := ← required? NodeKind.ofJson? kind
    name := ← required? string? name
    path := ← required? string? path
    documentId := ← optional? string? documentId
    parentKey := ← required? string? parentKey }

def Record.ofJson? (v : Json) : Option Record := do
  let (label, rest) ← tagged? "record" v
  match label with
  | "document" => (Document.ofJson? rest).map .document
  | "tag" => (Tag.ofJson? rest).map .tag
  | "attribute" => (Attribute.ofJson? rest).map .attribute
  | "folder_node" => (FolderNode.ofJson? rest).map .folderNode
  | _ => none

def Record.nestingLimit : Nat := 126

/-- Reads a row. Parts of a record that no field takes must have a value all the same. -/
def Row.read? (s : String) : Option Row := do
  let [key, record] ← fields? ["key", "record"] (← Json.read? s) | none
  let record ← record
  if !record.readable Record.nestingLimit then none
  return ⟨← required? RowKey.ofJson? key, ← Record.ofJson? record⟩

end Cabinet
