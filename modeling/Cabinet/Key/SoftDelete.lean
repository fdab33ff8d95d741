import Cabinet.Key.RowKey
import Cabinet.Tenant

/-! Soft deletion: a marker put into the keys of a row, behind the scope of its tenant, and taken
out again. -/

namespace Cabinet.SoftDelete

def marker : String := "softdelete#"

/-- A key that lacks the marker where it should have it. -/
structure Unmarked where
  key : String
  deriving DecidableEq

def Unmarked.message (fault : Unmarked) : String :=
  "Key " ++ fault.key ++ " does not carry the soft-delete marker"

/-- A key as the scope of `t` and the rest, or all of it as the rest when it lacks the scope. -/
def splitScope (t : Tenant) (key : String) : String × String :=
  match Text.dropFront? t.scope key with
  | some rest => (t.scope, rest)
  | none => ("", key)

@[simp] theorem splitScope_key (t : Tenant) (id : String) :
    splitScope t (t.key id) = (t.scope, id) := by
  simp [splitScope, Tenant.key]

def markKey (t : Tenant) (key : String) : String :=
  let (scope, rest) := splitScope t key
  scope ++ marker ++ rest

def unmarkKey (t : Tenant) (key : String) : Except Unmarked String :=
  let (scope, rest) := splitScope t key
  match Text.dropFront? marker rest with
  | some rest => .ok (scope ++ rest)
  | none => .error ⟨key⟩

def isMarked (t : Tenant) (key : String) : Bool := Text.beginsWith marker (splitScope t key).2

theorem markKey_key (t : Tenant) (id : String) : markKey t (t.key id) = t.key (marker ++ id) := by
  rw [markKey, splitScope_key]
  simp only [Tenant.key, String.append_assoc]

/-- The sort key of an index entry stays as it is. -/
def markEntry (t : Tenant) (a : Address) : Address := ⟨markKey t a.partition, a.sort⟩

def unmarkEntry (t : Tenant) (a : Address) : Except Unmarked Address := do
  return ⟨← unmarkKey t a.partition, a.sort⟩

def mark (t : Tenant) (key : RowKey) : RowKey where
  primary := ⟨markKey t key.primary.partition, markKey .default key.primary.sort⟩
  first := key.first.map (markEntry t)
  second := key.second.map (markEntry t)

def unmark (t : Tenant) (key : RowKey) : Except Unmarked RowKey := do
  let partition ← unmarkKey t key.primary.partition
  let sort ← unmarkKey .default key.primary.sort
  let first ← match key.first with
    | some a => some <$> unmarkEntry t a
    | none => pure none
  let second ← match key.second with
    | some a => some <$> unmarkEntry t a
    | none => pure none
  return { primary := ⟨partition, sort⟩, first, second }

end Cabinet.SoftDelete
