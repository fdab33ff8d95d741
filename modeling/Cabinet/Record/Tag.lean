import Cabinet.Calendar.Instant
import Cabinet.Key.Partition
import Cabinet.Key.RowKey

/-! Tags and the keys of their rows: one row for each value. -/

namespace Cabinet

inductive TagKind where
  | system
  | userDefined
  deriving DecidableEq

inductive TagValue where
  | keyOnly
  | single (value : String)
  | many (values : List String)
  deriving DecidableEq

def TagValue.values : TagValue → List String
  | .keyOnly => []
  | .single value => [value]
  | .many values => values

structure Tag where
  documentId : String
  key : String
  value : TagValue
  kind : TagKind := .userDefined
  userId : String
  inserted : Instant
  deriving DecidableEq

namespace Tag

def valueKey (t : Tenant) (tag : Tag) (sort value : String) : RowKey where
  primary := ⟨Partition.document t tag.documentId, sort⟩
  first := some ⟨Partition.tagValue t tag.key value,
    tag.inserted.millisecondText ++ delimiter ++ tag.documentId⟩
  second := some ⟨Partition.tag t tag.key, value⟩

def numberedSort (key : String) (i : Nat) : String :=
  SortKey.tag key ++ delimiter ++ Text.padded 4 i

/-- The keys of the tag's rows, in order of its values; a tag without value has one row. -/
def rowKeys (t : Tenant) (tag : Tag) : List RowKey :=
  match tag.value with
  | .keyOnly =>
    [{ primary := ⟨Partition.document t tag.documentId, SortKey.tag tag.key⟩
       second := some ⟨Partition.tag t tag.key, keyOnlyValue⟩ }]
  | .single value => [tag.valueKey t (SortKey.tag tag.key) value]
  | .many values => values.mapIdx fun i value => tag.valueKey t (numberedSort tag.key i) value

end Tag

end Cabinet
