import Cabinet.Criteria.Validation
import Cabinet.Table.Condition

/-! From criteria to conditions on the index values of one attribute: the values of several
attributes are looked up joined. -/

namespace Cabinet

structure CompiledCriteria where
  key : String
  eq : Option String := none
  eqOr : Option (List String) := none
  beginsWith : Option String := none
  range : Option Range := none
  deriving DecidableEq

namespace Criteria

def joinedChoices : List (List String) → List String
  | [] => [""]
  | [values] => values
  | values :: next :: rest =>
    values.flatMap fun value =>
      (joinedChoices (next :: rest)).map fun tail => value ++ compositeDelimiter ++ tail

def eqValues (c : Criteria) : List String := c.list.filterMap (·.eq)

def behindEq (c : Criteria) (value : String) : String :=
  if c.eqValues = [] then value
  else Text.joinWith compositeDelimiter c.eqValues ++ compositeDelimiter ++ value

def indexRange (range : Range) : Range :=
  match range.kind with
  | .text => range
  | .number =>
    { range with
      low := (numberIndexText? range.low).getD range.low
      high := (numberIndexText? range.high).getD range.high }

def compile (c : Criteria) : CompiledCriteria :=
  let key := Attribute.compositeName c.keys
  if c.list.any (·.eqOr.isSome) then
    { key, eqOr := some (joinedChoices (c.list.map Criterion.choices)) }
  else
    match c.list.getLast?.bind (·.range), c.list.getLast?.bind (·.beginsWith) with
    | some range, _ =>
      let range := indexRange range
      { key, range := some
          { range with low := c.behindEq range.low, high := c.behindEq range.high } }
    | none, some front =>
      { key, beginsWith := some (c.behindEq front)
        eq := if c.eqValues = [] then some "" else none }
    | none, none => { key, eq := some (Text.joinWith compositeDelimiter c.eqValues) }

end Criteria

inductive SearchPlan where
  | single (condition : Condition)
  | expand (values : List String)
  deriving DecidableEq

def CompiledCriteria.plan (c : CompiledCriteria) : SearchPlan :=
  match c.eqOr, c.range, c.beginsWith with
  | some values, _, _ => .expand values
  | none, some range, _ => .single (.between range.low range.high)
  | none, none, some front => .single (.beginsWith front)
  | none, none, none => .single (.equals (c.eq.getD ""))

def SearchPlan.conditions : SearchPlan → List Condition
  | .single condition => [condition]
  | .expand values => values.map .equals

end Cabinet
