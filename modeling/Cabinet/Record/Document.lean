import Cabinet.Calendar.Instant
import Cabinet.Key.Partition
import Cabinet.Key.RowKey

/-! Documents and the keys of their live rows and archived versions. -/

namespace Cabinet

structure Document where
  id : String
  tenant : Tenant := .default
  path : Option String := none
  contentType : Option String := none
  contentLength : Option UInt64 := none
  checksum : Option String := none
  userId : String
  inserted : Instant
  modified : Instant
  parent : Option String := none
  version : Option UInt32 := none
  deriving DecidableEq

namespace Document

/-- A document that has never been saved over has no version number and counts as the first. -/
def currentVersion (d : Document) : UInt32 := d.version.getD 1

def insertedDay (d : Document) : String := d.inserted.day.text

/-- Rows of a day are in order of insertion, those of one parent in order of id. -/
def liveKey (d : Document) : RowKey where
  primary := ⟨Partition.document d.tenant d.id, SortKey.document⟩
  first := some ⟨Partition.day d.tenant d.insertedDay,
    d.inserted.millisecondText ++ delimiter ++ d.id⟩
  second := d.parent.map fun parent => ⟨Partition.children d.tenant parent, d.id⟩

def versionKey (d : Document) (n : UInt32) : RowKey where
  primary := ⟨Partition.document d.tenant d.id, SortKey.version n⟩

end Document

end Cabinet
