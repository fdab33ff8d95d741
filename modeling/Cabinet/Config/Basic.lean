import Cabinet.Text.Blank
import Cabinet.Text.Natural
import Cabinet.Text.Pieces

/-! The settings of a store and what makes them unfit. -/

namespace Cabinet

def tableBatchLimit : Nat := 100

structure Config where
  documentsTable : String := "documents"
  batchSize : Nat := tableBatchLimit
  defaultPageLimit : Nat := 10
  maxPageLimit : Nat := 100
  /-- How long page tokens live, in milliseconds. -/
  tokenLife : Nat := 60000
  maxCombinations : Nat := 100
  compositeKeys : List (List String) := []
  deriving DecidableEq

namespace Config

inductive Fault where
  | blankTable (name : String)
  | batchSize (n : Nat)
  | noPages
  | defaultPageLimit (n : Nat)
  | noTokenLife
  | noCombinations
  | shortGroup (keys : List String)
  | blankComponent (keys : List String)
  | repeatedComponent (keys : List String)
  deriving DecidableEq

namespace Fault

def setting : Fault → String
  | .blankTable _ => "documents_table"
  | .batchSize _ => "batch_get_max"
  | .noPages => "max_page_limit"
  | .defaultPageLimit _ => "default_page_limit"
  | .noTokenLife => "pagination_ttl"
  | .noCombinations => "max_eq_or_combinations"
  | .shortGroup _ | .blankComponent _ | .repeatedComponent _ => "composite_keys"

def value : Fault → String
  | .blankTable name => name
  | .batchSize n | .defaultPageLimit n => Text.decimal n
  | .noPages | .noCombinations => "0"
  | .noTokenLife => "0ns"
  | .shortGroup keys | .blankComponent keys | .repeatedComponent keys => Text.joinWith "," keys

def reason : Fault → String
  | .blankTable _ => "documents_table must not be blank"
  | .batchSize _ => "batch_get_max must be between 1 and 100"
  | .noPages => "max_page_limit must be greater than 0"
  | .defaultPageLimit _ => "default_page_limit must be between 1 and max_page_limit"
  | .noTokenLife => "pagination_ttl must be positive"
  | .noCombinations => "max_eq_or_combinations must be greater than 0"
  | .shortGroup _ => "a composite key needs at least two attribute keys"
  | .blankComponent _ => "composite key components must not be blank"
  | .repeatedComponent _ => "composite key components must be distinct"

def message (fault : Fault) : String :=
  "Config error: Invalid value for " ++ fault.setting ++ ": " ++ fault.value ++ " - " ++
    fault.reason

end Fault

def groupFault? (keys : List String) : Option Fault :=
  if keys.length < 2 then some (.shortGroup keys)
  else if keys.any Text.allBlank then some (.blankComponent keys)
  else if keys.Nodup then none
  else some (.repeatedComponent keys)

def fault? (c : Config) : Option Fault :=
  if Text.allBlank c.documentsTable then some (.blankTable c.documentsTable)
  else if c.batchSize = 0 ∨ tableBatchLimit < c.batchSize then some (.batchSize c.batchSize)
  else if c.maxPageLimit = 0 then some .noPages
  else if c.defaultPageLimit = 0 ∨ c.maxPageLimit < c.defaultPageLimit then
    some (.defaultPageLimit c.defaultPageLimit)
  else if c.tokenLife = 0 then some .noTokenLife
  else if c.maxCombinations = 0 then some .noCombinations
  else c.compositeKeys.findSome? groupFault?

def Valid (c : Config) : Prop := c.fault? = none

instance (c : Config) : Decidable c.Valid := inferInstanceAs (Decidable (_ = none))

def groupsOf (c : Config) (key : String) : List (List String) := c.compositeKeys.filter (key ∈ ·)

def hasGroup (c : Config) (keys : List String) : Bool := keys ∈ c.compositeKeys

end Config

end Cabinet
