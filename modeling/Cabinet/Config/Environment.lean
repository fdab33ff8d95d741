import Cabinet.Config.Basic

/-! Configurations from the settings of an environment, each a text that may be missing. A number
that cannot be read leaves its default. -/

namespace Cabinet

structure Environment where
  documentsTable : Option String := none
  batchSize : Option String := none
  defaultPageLimit : Option String := none
  maxPageLimit : Option String := none
  /-- In seconds. -/
  tokenLife : Option String := none
  maxCombinations : Option String := none
  compositeKeys : Option String := none

/-- Groups end in semicolons and keys in commas; blanks around a key and empty groups are left
out. -/
def Config.readCompositeKeys (s : String) : List (List String) :=
  let keysOf (group : String) := ((Text.splitAt ',' group).map Text.trim).filter (· ≠ "")
  ((Text.splitAt ';' s).map keysOf).filter (· ≠ [])

namespace Environment

def number (default : Nat) (setting : Option String) : Nat :=
  (setting.bind (Text.natural? UInt64.size)).getD default

def config (e : Environment) : Config :=
  let defaults : Config := {}
  { documentsTable :=
      (e.documentsTable.filter (!Text.allBlank ·)).getD defaults.documentsTable
    batchSize := number defaults.batchSize e.batchSize
    defaultPageLimit := number defaults.defaultPageLimit e.defaultPageLimit
    maxPageLimit := number defaults.maxPageLimit e.maxPageLimit
    tokenLife := number (defaults.tokenLife / 1000) e.tokenLife * 1000
    maxCombinations := number defaults.maxCombinations e.maxCombinations
    compositeKeys := (e.compositeKeys.map Config.readCompositeKeys).getD defaults.compositeKeys }

end Environment

end Cabinet
