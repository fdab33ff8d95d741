import Cabinet.Calendar.Instant
import Cabinet.Key.Partition
import Cabinet.Key.RowKey
import Cabinet.Number.FixedPoint

/-! Attributes, the text by which their values are looked up, and the keys of their rows. -/

namespace Cabinet

inductive AttributeValue where
  | text (value : String)
  | number (value : Binary64)
  | boolean (value : Bool)
  | keyOnly
  | classification (value : String)
  | entity (value : String)
  | relationship (value : String)
  | composite (value : String)
  deriving DecidableEq

/-- Numbers in keys have four decimal places and at least twenty characters. -/
def keyNumber : FixedPoint := ⟨4, 20⟩

namespace AttributeValue

def indexText : AttributeValue → String
  | .text value | .classification value | .entity value | .relationship value
  | .composite value => value
  | .number value => keyNumber.render value
  | .boolean value => if value then "true" else "false"
  | .keyOnly => keyOnlyValue

def isComposite : AttributeValue → Bool
  | .composite _ => true
  | _ => false

end AttributeValue

structure Attribute where
  documentId : String
  key : String
  value : AttributeValue
  userId : String
  inserted : Instant
  deriving DecidableEq

namespace Attribute

def compositeName (keys : List String) : String := Text.joinWith compositeDelimiter keys

def composite (documentId : String) (keys values : List String) (userId : String)
    (inserted : Instant) : Attribute where
  documentId
  key := compositeName keys
  value := .composite (Text.joinWith compositeDelimiter values)
  userId
  inserted

def rowKey (t : Tenant) (a : Attribute) : RowKey where
  primary := ⟨Partition.document t a.documentId, SortKey.attributeKey a.key ++ a.value.indexText⟩
  first := some ⟨Partition.attributeKey t a.key, a.value.indexText⟩

end Attribute

end Cabinet
