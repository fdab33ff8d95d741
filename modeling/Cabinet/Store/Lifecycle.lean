import Cabinet.Store.Documents

/-! Deleting documents with all that belongs to them, and bringing soft-deleted ones back. -/

namespace Cabinet

/-- All that is reached from the pending ones, nearest first. `fuel` bounds how many of them are
visited. -/
def reachable (next : String → List String) : Nat → List String → List String → List String
  | 0, _, known => known
  | _ + 1, [], known => known
  | fuel + 1, id :: pending, known =>
    let new := (firsts (next id)).filter (· ∉ known)
    reachable next fuel (pending ++ new) (known ++ new)

namespace Table

def move (t : Table) (moves : List (Address × Row)) : Table :=
  moves.foldl (fun t (origin, row) => (t.put row).erase origin) t

def markedMoves (tenant : Tenant) (rows : List Row) : List (Address × Row) :=
  (rows.filter fun row => !SoftDelete.isMarked tenant row.address.partition).map fun row =>
    (row.address, ⟨SoftDelete.mark tenant row.key, row.record⟩)

def softDelete (t : Table) (tenant : Tenant) (rows : List Row) : Table :=
  t.move (markedMoves tenant rows)

def unmarkedMoves (tenant : Tenant) : List Row → Except SoftDelete.Unmarked (List (Address × Row))
  | [] => .ok []
  | row :: rows => do
    let key ← SoftDelete.unmark tenant row.key
    return (row.address, ⟨key, row.record⟩) :: (← unmarkedMoves tenant rows)

def liveRows (t : Table) (tenant : Tenant) (id : String) : List Row :=
  t.partitionRows (Partition.document tenant id) ++ (t.leaf? tenant id).toList

def family (t : Table) (tenant : Tenant) (id : String) : List String :=
  reachable (fun id => (t.children tenant id).map Document.id) (t.rows.size + 1) [id] [id]

def remove (t : Table) (tenant : Tenant) (soft : Bool) (ids : List String) : Table :=
  ids.foldl
    (fun t id =>
      if soft then t.softDelete tenant (t.liveRows tenant id)
      else t.eraseAll (t.liveRows tenant id))
    t

def deletedPartitionRows (t : Table) (tenant : Tenant) (id : String) : List Row :=
  t.partitionRows (SoftDelete.markKey tenant (Partition.document tenant id))

def deletedRows (t : Table) (tenant : Tenant) (id : String) : List Row :=
  let rows := t.deletedPartitionRows tenant id
  if rows = [] then [] else rows ++ (t.deletedLeaf? tenant id).toList

def deletedChildren (t : Table) (tenant : Tenant) (id : String) : List String :=
  if t.deletedPartitionRows tenant id = [] then []
  else
    let partition := SoftDelete.markKey tenant (Partition.children tenant id)
    (t.queryAll { index := .second, partition }).filterMap Row.documentId?

def deletedFamily (t : Table) (tenant : Tenant) (id : String) : List String :=
  reachable (t.deletedChildren tenant) (t.rows.size + 1) [id] [id]

def deletedDocuments (t : Table) (tenant : Tenant) (id : String) : List Document :=
  let sort := SoftDelete.markKey .default SortKey.document
  ((t.deletedPartitionRows tenant id).filter (·.address.sort = sort)).filterMap Row.document?

end Table

namespace Store

def softDeleteRows (t : Tenant) (rows : List Row) : Action Nat := do
  Action.write (·.softDelete t rows)
  return (Table.markedMoves t rows).length

/-- Nothing is moved when one of the rows is not soft-deleted. -/
def restoreRows (t : Tenant) (rows : List Row) : Action Nat := do
  match Table.unmarkedMoves t rows with
  | .ok moves =>
    Action.write (·.move moves)
    return moves.length
  | .error fault => throw (.unmarked fault)

def deleteDocument (t : Tenant) (id : String) (soft : Bool) : Action Bool := do
  let table ← Action.table
  if (table.document? t id).isNone then return false
  Action.write (·.remove t soft (table.family t id))
  return true

def restoreDocument (t : Tenant) (id : String) : Action Bool := do
  let table ← Action.table
  if (table.document? t id).isSome then throw (.documentExists id)
  let members := table.deletedFamily t id
  let rows := members.flatMap (table.deletedRows t)
  if rows = [] then return false
  let _ ← restoreRows t rows
  Action.write (·.indexPaths t (members.flatMap (table.deletedDocuments t)))
  return true

def listDeletedDocuments (c : Config) (t : Tenant) (day : Day) (request : PageRequest) :
    Action (Page Document) := do
  let partition := SoftDelete.markKey t (Partition.day t day.text)
  return documentsOnly (← Paging.query c { index := .first, partition } request)

end Store

end Cabinet
