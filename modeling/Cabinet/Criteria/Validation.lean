import Cabinet.Criteria.Basic
import Cabinet.Distinct
import Cabinet.Error

/-! Which lists of criteria can be searched for. -/

namespace Cabinet.Criteria

inductive Fault where
  | noAttributes
  | blankKey
  | compositeKey (key : String)
  | repeatedKey (key : String)
  | noCondition (key : String)
  | manyConditions (key : String)
  | noChoices (key : String)
  | earlyBeginsWith (key : String)
  | earlyRange (key : String)
  | notANumber (key bound : String)
  | choiceBesideOther (key : String)
  | notEqBefore (key : String)
  | tooManyCombinations (count limit : Nat)
  deriving DecidableEq

def Fault.issue : Fault → Issue
  | .noAttributes => ⟨"attributes", "at least one search attribute is required"⟩
  | .blankKey => ⟨"key", "attribute key is required"⟩
  | .compositeKey key => ⟨key, "attribute key must not contain '::'"⟩
  | .repeatedKey key => ⟨key, "attribute key is listed more than once"⟩
  | .noCondition key => ⟨key, "one of eq, eqOr, beginsWith or range is required"⟩
  | .manyConditions key => ⟨key, "only one of eq, eqOr, beginsWith or range may be set"⟩
  | .noChoices key => ⟨key, "eqOr requires at least one value"⟩
  | .earlyBeginsWith key => ⟨key, "only the last attribute may use beginsWith"⟩
  | .earlyRange key => ⟨key, "only the last attribute may use a range"⟩
  | .notANumber key bound => ⟨key, "range value '" ++ bound ++ "' is not a number"⟩
  | .choiceBesideOther key => ⟨key, "eqOr cannot be combined with beginsWith or range"⟩
  | .notEqBefore key => ⟨key, "attributes before a range or beginsWith must use eq"⟩
  | .tooManyCombinations count limit =>
    ⟨"eqOr", Text.decimal count ++ " value combinations exceed the limit of " ++
      Text.decimal limit⟩

def keyFaults (seen : List String) (key : String) : List Fault :=
  onlyIf (Text.mentions compositeDelimiter key) (.compositeKey key) ++
    onlyIf (key ∈ seen) (.repeatedKey key)

def conditionFaults (key : String) (c : Criterion) : List Fault :=
  onlyIf (c.conditionCount = 0) (.noCondition key) ++
    onlyIf (1 < c.conditionCount) (.manyConditions key) ++
    onlyIf (c.eqOr = some []) (.noChoices key)

def boundFaults (key : String) (range : Range) : List Fault :=
  if range.kind = .number then
    ([range.low, range.high].filter fun bound => (numberIndexText? bound).isNone).map
      (.notANumber key)
  else []

/-- `isLast` tells the last criterion, `anyChoice` a list in which some criterion leaves a
choice. -/
def placeFaults (isLast anyChoice : Bool) (key : String) (c : Criterion) : List Fault :=
  onlyIf (c.beginsWith.isSome ∧ !isLast) (.earlyBeginsWith key) ++
    (match c.range with
      | some range => onlyIf (!isLast) (.earlyRange key) ++ boundFaults key range
      | none => []) ++
    onlyIf (anyChoice ∧ (c.beginsWith.isSome ∨ c.range.isSome)) (.choiceBesideOther key)

/-- The faults of each criterion in turn; `seen` are the keys before it. A blank key is the only
fault of its criterion. -/
def criterionFaults (anyChoice : Bool) (seen : List String) : List Criterion → List Fault
  | [] => []
  | c :: rest =>
    let key := Text.trim c.key
    if key = "" then .blankKey :: criterionFaults anyChoice seen rest
    else
      keyFaults seen key ++ conditionFaults key c ++ placeFaults rest.isEmpty anyChoice key c ++
        criterionFaults anyChoice (key :: seen) rest

def tailFaults (criteria : List Criterion) : List Fault :=
  match criteria.getLast? with
  | some last =>
    if last.range.isSome ∨ last.beginsWith.isSome then
      (criteria.dropLast.filter (·.eq.isNone)).map fun c => .notEqBefore (Text.trim c.key)
    else []
  | none => []

def countCap : Nat := 18446744073709551615

/-- How many ways there are to choose a value for each criterion; once the count does not fit a
word it stays at the largest one. -/
def combinationCount (criteria : List Criterion) : Nat :=
  let count := criteria.foldl
    (fun (n : Option Nat) c => (n.map (· * c.choices.length)).filter (· ≤ countCap)) (some 1)
  count.getD countCap

def countFaults (limit : Nat) (criteria : List Criterion) : List Fault :=
  let count := combinationCount criteria
  onlyIf (criteria.any (·.eqOr.isSome) ∧ limit < count) (.tooManyCombinations count limit)

def faults (limit : Nat) (criteria : List Criterion) : List Fault :=
  if criteria = [] then [.noAttributes]
  else criterionFaults (criteria.any (·.eqOr.isSome)) [] criteria ++ tailFaults criteria ++
    countFaults limit criteria

end Cabinet.Criteria

namespace Cabinet

structure Criteria where
  list : List Criterion
  deriving DecidableEq

namespace Criteria

def check (limit : Nat) (criteria : List Criterion) : Except Error Criteria :=
  match faults limit criteria with
  | [] => .ok ⟨criteria⟩
  | found => .error (.invalid (found.map Fault.issue))

def keys (c : Criteria) : List String := c.list.map (·.key)

def isComposite (c : Criteria) : Bool := 1 < c.list.length

end Criteria

end Cabinet
