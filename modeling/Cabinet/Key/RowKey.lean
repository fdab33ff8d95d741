import Cabinet.Key.Address

/-! The keys under which one row is found: its own address and up to two index entries. -/

namespace Cabinet

structure RowKey where
  primary : Address
  first : Option Address := none
  second : Option Address := none
  deriving DecidableEq

inductive Index where
  | primary
  | first
  | second
  deriving DecidableEq

def RowKey.entry (key : RowKey) : Index → Option Address
  | .primary => some key.primary
  | .first => key.first
  | .second => key.second

end Cabinet
