import Cabinet.Error
import Cabinet.Table.Query

/-! Tables: a primary collection of rows that is read and written, and other collections that are
only read in batches. -/

namespace Cabinet

structure Table where
  name : String
  maxBatchSize : Nat
  rows : Rows := .empty
  others : List (String × Rows) := []
  batchCalls : Nat := 0
  deriving DecidableEq

namespace Table

/-- A collection that was never written to is empty. -/
def collection (t : Table) (name : String) : Rows :=
  if name = t.name then t.rows else (t.others.lookup name).getD .empty

def get? (t : Table) (a : Address) : Option Row := t.rows.get? a

def put (t : Table) (row : Row) : Table := { t with rows := t.rows.insert row }

def putAll (t : Table) (rows : List Row) : Table := rows.foldl put t

def erase (t : Table) (a : Address) : Table := { t with rows := t.rows.erase a }

def eraseAll (t : Table) (rows : List Row) : Table :=
  rows.foldl (fun t row => t.erase row.address) t

def query (t : Table) (q : Query) : QueryPage := q.page t.rows

def queryAll (t : Table) (q : Query) : List Row := q.drain t.rows

def partitionRows (t : Table) (partition : String) : List Row :=
  t.queryAll { index := .primary, partition }

def rowsFrom (t : Table) (partition front : String) : List Row :=
  t.queryAll { index := .primary, partition, condition := some (.beginsWith front) }

def seed (t : Table) (name : String) (row : Row) : Table :=
  if name = t.name then t.put row
  else
    let others := t.others.filter (·.1 ≠ name)
    { t with others := (name, (t.collection name).insert row) :: others }

def clear (t : Table) : Table := { t with rows := .empty, others := [] }

/-- The rows at the given addresses, in that order; addresses without row are passed over. A batch
that is too large is refused and not counted. -/
def batchGet (t : Table) (name : String) (keys : List Address) : Except Error (List Row × Table) :=
  if t.maxBatchSize < keys.length then .error (.batchTooLarge keys.length t.maxBatchSize)
  else .ok (keys.filterMap (t.collection name).get?, { t with batchCalls := t.batchCalls + 1 })

end Table

end Cabinet
