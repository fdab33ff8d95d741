import Cabinet.Sorting
import Cabinet.Table.Basic

/-! Live documents and their archived versions in a table. -/

namespace Cabinet.Table

def document? (t : Table) (tenant : Tenant) (id : String) : Option Document :=
  (t.get? ⟨Partition.document tenant id, SortKey.document⟩).bind Row.document?

def archive (t : Table) (d : Document) : Table := t.put d.archivedRow

/-- The archived versions of a document, by number; as texts the numbers would be out of order. -/
def versions (t : Table) (tenant : Tenant) (id : String) : List Document :=
  let rows := t.rowsFrom (Partition.document tenant id) SortKey.versionFront
  let numbered := rows.filterMap fun row => do
    return (← SortKey.readVersion? row.address.sort, ← row.document?)
  (sortBy (fun a b => a.1 < b.1) numbered).map (·.2)

def version? (t : Table) (tenant : Tenant) (id : String) (n : UInt32) : Option Document :=
  (t.get? ⟨Partition.document tenant id, SortKey.version n⟩).bind Row.document?

def children (t : Table) (tenant : Tenant) (parent : String) : List Document :=
  (t.queryAll { index := .second, partition := Partition.children tenant parent }).filterMap
    Row.document?

end Cabinet.Table
