import Cabinet.Text.Affix

/-! Conditions on the sort keys of an index. -/

namespace Cabinet

inductive Condition where
  | equals (value : String)
  | beginsWith (front : String)
  | between (low high : String)
  deriving DecidableEq

def Condition.holds : Condition → String → Bool
  | .equals value, sort => sort = value
  | .beginsWith front, sort => Text.beginsWith front sort
  | .between low high, sort => low ≤ sort ∧ sort ≤ high

end Cabinet
