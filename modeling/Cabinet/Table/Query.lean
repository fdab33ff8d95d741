import Cabinet.Sorting
import Cabinet.Table.Condition
import Cabinet.Table.Rows

/-! Range queries in one partition of an index, in pages. -/

namespace Cabinet

/-- Where a page ended: the address of its last row and, for a query of another index, the row's
entry there. -/
structure PageKey where
  primary : Address
  entry : Option Address := none
  deriving DecidableEq

structure Query where
  index : Index
  partition : String
  condition : Option Condition := none
  limit : Nat := 100
  start : Option PageKey := none
  descending : Bool := false

structure QueryPage where
  rows : List Row := []
  last : Option PageKey := none
  deriving DecidableEq

structure Position where
  sort : String
  address : Address
  deriving DecidableEq

namespace Position

instance : LT Position where
  lt a b := a.sort < b.sort ∨ a.sort = b.sort ∧ a.address < b.address

instance (a b : Position) : Decidable (a < b) := inferInstanceAs (Decidable (_ ∨ _ ∧ _))

end Position

/-- A page key from another index counts by its own address. -/
def PageKey.position (key : PageKey) : Position :=
  ⟨(key.entry.getD key.primary).sort, key.primary⟩

namespace Query

def position? (q : Query) (row : Row) : Option Position :=
  match row.key.entry q.index with
  | some entry =>
    if entry.partition = q.partition ∧ q.condition.all (·.holds entry.sort) then
      some ⟨entry.sort, row.address⟩
    else none
  | none => none

def before (q : Query) (a b : Position) : Bool := if q.descending then b < a else a < b

def pastStart (q : Query) (p : Position) : Bool :=
  q.start.all fun key => q.before key.position p

def ordered (q : Query) (rows : Rows) : List (Position × Row) :=
  sortBy (fun a b => q.before a.1 b.1)
    (rows.toList.filterMap fun row => (q.position? row).map (·, row))

def remaining (q : Query) (rows : Rows) : List (Position × Row) :=
  (q.ordered rows).dropWhile fun a => !q.pastStart a.1

def pageKey (q : Query) (row : Row) : PageKey where
  primary := row.address
  entry := if q.index = .primary then none else row.key.entry q.index

def page (q : Query) (rows : Rows) : QueryPage :=
  let found := (q.remaining rows).map (·.2)
  let limit := max q.limit 1
  let shown := found.take limit
  { rows := shown
    last := if limit < found.length then shown.getLast?.map q.pageKey else none }

def drainFrom (rows : Rows) : Nat → Query → List Row
  | 0, _ => []
  | pages + 1, q =>
    let page := q.page rows
    match page.last with
    | some key => page.rows ++ drainFrom rows pages { q with start := some key }
    | none => page.rows

/-- The rows of all pages; there are at most as many pages as rows. -/
def drain (q : Query) (rows : Rows) : List Row := drainFrom rows (rows.size + 1) q

end Query

end Cabinet
