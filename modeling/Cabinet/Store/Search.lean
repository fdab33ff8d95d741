import Cabinet.Criteria.Plan
import Cabinet.Store.Attributes

/-! Searching documents by their attributes. -/

namespace Cabinet.Store

def matchedIds (rows : List Row) : List String :=
  firsts ((rows.filterMap Row.attribute?).map (·.documentId))

/-- Several attributes can be searched together only as a composite key of the configuration. A
search under one condition goes in pages. One for several values is answered at once, value after
value, and has no links. -/
def search (c : Config) (t : Tenant) (criteria : Criteria) (request : PageRequest) :
    Action (Page Document) := do
  if criteria.isComposite && !c.hasGroup criteria.keys then
    throw (.invalid [⟨"attributes",
      "no composite key configured for '" ++ Text.joinWith ", " criteria.keys ++ "'"⟩])
  let compiled := criteria.compile
  let partition := Partition.attributeKey t compiled.key
  match compiled.plan with
  | .single condition =>
    let q : Query := { index := .first, partition, condition := some condition }
    let page ← Paging.query c q request
    return page.withItems (← findDocuments c t (matchedIds page.items))
  | .expand values =>
    let table ← Action.table
    let rows := values.flatMap fun value =>
      table.queryAll { index := .first, partition, condition := some (.equals value) }
    let ids := (matchedIds rows).take (Paging.clampLimit c request.limit)
    return { items := ← findDocuments c t ids }

end Cabinet.Store
