import Cabinet.Number.Binary64

/-! JSON values as they are read: a number that is not a word counts as the nearest binary64
number, and object members keep their order. -/

namespace Cabinet

inductive Json where
  | null
  | boolean (b : Bool)
  | natural (n : UInt64)
  /-- The number `-n`, written without fraction or exponent. -/
  | negative (n : UInt64)
  | real (x : Binary64)
  | string (s : String)
  /-- A string or a name with a broken surrogate pair, or a number out of range: well written, but
  of no value. -/
  | valueless
  | array (elements : List Json)
  | object (members : List (String × Json))

namespace Json

mutual

def readable : Nat → Json → Bool
  | _, .valueless => false
  | depth, .array elements => 0 < depth && readableElements (depth - 1) elements
  | depth, .object members => 0 < depth && readableMembers (depth - 1) members
  | _, _ => true

def readableElements : Nat → List Json → Bool
  | _, [] => true
  | depth, e :: es => readable depth e && readableElements depth es

def readableMembers : Nat → List (String × Json) → Bool
  | _, [] => true
  | depth, (_, e) :: es => readable depth e && readableMembers depth es

end

end Json

end Cabinet
