import Cabinet.Record.Attribute
import Cabinet.Number.Decimal
import Cabinet.Text.Blank

/-! Search criteria: conditions on the attributes of a document. -/

namespace Cabinet

inductive RangeKind where
  | text
  | number
  deriving DecidableEq

structure Range where
  kind : RangeKind
  low : String
  high : String
  deriving DecidableEq

structure Criterion where
  key : String
  eq : Option String := none
  eqOr : Option (List String) := none
  beginsWith : Option String := none
  range : Option Range := none
  deriving DecidableEq

/-- The index text of the finite number that `s` writes, blanks at its ends aside. -/
def numberIndexText? (s : String) : Option String :=
  ((Decimal.read? (Text.trim s)).filter Binary64.isFinite).map keyNumber.render

namespace Criterion

def conditionCount (c : Criterion) : Nat :=
  c.eq.isSome.toNat + c.eqOr.isSome.toNat + c.beginsWith.isSome.toNat + c.range.isSome.toNat

def choices (c : Criterion) : List String :=
  match c.eqOr, c.eq with
  | some values, _ => values
  | none, some value => [value]
  | none, none => []

end Criterion

end Cabinet
