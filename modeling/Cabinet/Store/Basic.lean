import Cabinet.Config.Basic
import Cabinet.Page.Cache
import Cabinet.Page.Clock
import Cabinet.Page.Token
import Cabinet.Table.Basic

/-! The state of a store and the actions on it. What an action has written before it fails stays
written. -/

namespace Cabinet

structure Store where
  table : Table
  cache : Cache TokenId Stored := {}
  clock : Clock
  issued : Nat := 0

abbrev Action (α : Type) := ExceptT Error (StateM Store) α

namespace Action

def table : Action Table := do return (← get).table

def write (change : Table → Table) : Action Unit :=
  modify fun store => { store with table := change store.table }

def ofExcept {α : Type} : Except Error α → Action α
  | .ok a => pure a
  | .error e => throw e

def check (issues : List Issue) : Action Unit :=
  if issues = [] then pure () else throw (.invalid issues)

end Action

end Cabinet
