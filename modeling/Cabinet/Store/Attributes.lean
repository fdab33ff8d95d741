import Cabinet.Store.Documents

/-! The attributes of documents, and the composite attributes that follow from them. -/

namespace Cabinet

namespace Attribute

def issues (a : Attribute) : List Issue :=
  let key := Text.trim a.key
  if key = "" then [⟨"key", "attribute key is required"⟩]
  else
    onlyIf (Text.mentions compositeDelimiter key) ⟨key, "attribute key must not contain '::'"⟩ ++
    onlyIf a.value.isComposite ⟨key, "composite values are maintained by the store"⟩ ++
    (match a.value with
      | .number x => onlyIf (!x.isFinite) ⟨key, "number must be finite"⟩
      | _ => []) ++
    onlyIf (Text.allBlank a.userId) ⟨"userId", "userId is required"⟩

/-- Every way to choose one value from each list; the first list varies slowest. -/
def combinations (components : List (List String)) : List (List String) :=
  components.foldl
    (fun chosen values => chosen.flatMap fun front => values.map fun value => front ++ [value])
    [[]]

end Attribute

namespace Table

/-- The rows of one attribute key. Other keys may begin like it, and their rows are not among
them. -/
def attributeRows (t : Table) (tenant : Tenant) (id key : String) : List Row :=
  (t.rowsFrom (Partition.document tenant id) (SortKey.attributeKey key)).filter fun row =>
    row.attribute?.any (·.key = key)

def attributesOf (t : Table) (tenant : Tenant) (id key : String) : List Attribute :=
  (t.attributeRows tenant id key).filterMap Row.attribute?

def setAttribute (t : Table) (tenant : Tenant) (id key : String) (values : List Attribute) :
    Table :=
  (t.eraseAll (t.attributeRows tenant id key)).putAll (values.map (·.row tenant))

def attributeKeys (attributes : List Attribute) : List String :=
  distinct (fun a b => a < b) (attributes.map (·.key))

def setAttributes (t : Table) (tenant : Tenant) (id : String) (attributes : List Attribute) :
    Table :=
  (attributeKeys attributes).foldl
    (fun t key => t.setAttribute tenant id key (attributes.filter (·.key = key))) t

/-- The composite attributes for the values that the components have now. They are of the user
and the time of the first value of the first component that has one. -/
def compositesOf (t : Table) (tenant : Tenant) (id : String) (group : List String) :
    List Attribute :=
  let components := group.map (t.attributesOf tenant id)
  match components.findSome? List.head? with
  | none => []
  | some owner =>
    (Attribute.combinations (components.map fun values => values.map (·.value.indexText))).map
      fun values => Attribute.composite id group values owner.userId owner.inserted

def refreshGroup (t : Table) (tenant : Tenant) (id : String) (group : List String) : Table :=
  let t := t.eraseAll (t.attributeRows tenant id (Attribute.compositeName group))
  t.putAll ((t.compositesOf tenant id group).map (·.row tenant))

def refreshComposites (t : Table) (c : Config) (tenant : Tenant) (id : String)
    (keys : List String) : Table :=
  (firsts (keys.flatMap c.groupsOf)).foldl (fun t group => t.refreshGroup tenant id group) t

end Table

namespace Store

def setAttributes (c : Config) (t : Tenant) (id : String) (attributes : List Attribute) :
    Action Unit := do
  Action.check (attributes.flatMap Attribute.issues)
  let _ ← requireDocument t id
  let attributes := attributes.map fun a => { a with documentId := id }
  Action.write (·.setAttributes t id attributes)
  Action.write (·.refreshComposites c t id (Table.attributeKeys attributes))

def findAttributes (t : Tenant) (id : String) : Action (List Attribute) := do
  let rows := (← Action.table).rowsFrom (Partition.document t id) SortKey.attributes
  return (rows.filterMap Row.attribute?).filter fun a => !a.value.isComposite

def findAttribute (t : Tenant) (id key : String) : Action (List Attribute) := do
  return (← Action.table).attributesOf t id key

def deleteAttribute (c : Config) (t : Tenant) (id key : String) : Action Nat := do
  let rows := (← Action.table).attributeRows t id key
  Action.write (·.eraseAll rows)
  if rows ≠ [] then Action.write (·.refreshComposites c t id [key])
  return rows.length

end Store

end Cabinet
