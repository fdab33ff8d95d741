import Cabinet.Store.Documents

/-! The tags of documents. -/

namespace Cabinet

def Tag.issues (tag : Tag) : List Issue :=
  onlyIf (Text.allBlank tag.key) ⟨"key", "tag key is required"⟩ ++
  onlyIf (tag.value = .many []) ⟨tag.key, "tag value list must not be empty"⟩ ++
  onlyIf (Text.allBlank tag.userId) ⟨"userId", "userId is required"⟩

namespace Table

def tagRows (t : Table) (tenant : Tenant) (id key : String) : List Row :=
  (t.rowsFrom (Partition.document tenant id) (SortKey.tag key)).filter fun row =>
    row.tag?.any (·.key = key)

def setTag (t : Table) (tenant : Tenant) (tag : Tag) : Table :=
  (t.eraseAll (t.tagRows tenant tag.documentId tag.key)).putAll (tag.rows tenant)

def setTags (t : Table) (tenant : Tenant) (id : String) (tags : List Tag) : Table :=
  tags.foldl (fun t tag => t.setTag tenant { tag with documentId := id }) t

end Table

namespace Store

def addTags (t : Tenant) (id : String) (tags : List Tag) : Action Unit := do
  Action.check (tags.flatMap Tag.issues)
  let _ ← requireDocument t id
  Action.write (·.setTags t id tags)

def findTags (t : Tenant) (id : String) : Action (List Tag) := do
  let rows := (← Action.table).rowsFrom (Partition.document t id) SortKey.tags
  return firstOfRuns Tag.key (rows.filterMap Row.tag?)

def findTag (t : Tenant) (id key : String) : Action (Option Tag) := do
  return ((← Action.table).tagRows t id key).head?.bind Row.tag?

def deleteTag (t : Tenant) (id key : String) : Action Bool := do
  let rows := (← Action.table).tagRows t id key
  Action.write (·.eraseAll rows)
  return rows ≠ []

/-- Tags with a key, and with a value if one is given; of each document one on a page. -/
def searchTags (c : Config) (t : Tenant) (key : String) (value : Option String)
    (request : PageRequest) : Action (Page Tag) := do
  let q : Query := match value with
    | some value => { index := .first, partition := Partition.tagValue t key value }
    | none => { index := .second, partition := Partition.tag t key }
  let page ← Paging.query c q request
  return page.withItems (firstsBy Tag.documentId (page.items.filterMap Row.tag?))

end Store

end Cabinet
