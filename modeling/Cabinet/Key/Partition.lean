import Cabinet.Tenant
import Cabinet.Text.Natural

/-! The partitions of a tenant's rows and the sort keys in them. -/

namespace Cabinet

def delimiter : String := "#"

def compositeDelimiter : String := "::"

namespace Partition

def document (t : Tenant) (id : String) : String := t.key ("docs#" ++ id)

def day (t : Tenant) (day : String) : String := t.key ("docts#" ++ day)

def children (t : Tenant) (parent : String) : String := t.key ("children#" ++ parent)

def attributeKey (t : Tenant) (key : String) : String := t.key ("docs#attr#" ++ key)

def tag (t : Tenant) (key : String) : String := t.key ("tag#" ++ key)

def tagValue (t : Tenant) (key value : String) : String :=
  t.key ("tag#" ++ key ++ delimiter ++ value)

def rootFolder (t : Tenant) : String := t.key "folders#"

def leaf (t : Tenant) (id : String) : String := t.key ("folder#" ++ id)

end Partition

namespace SortKey

def document : String := "document"

def versionFront : String := "document#v"

def version (n : UInt32) : String := versionFront ++ Text.decimal n.toNat

/-- The number of an archived version; it may be written with a plus sign or leading zeros. -/
def readVersion? (sort : String) : Option UInt32 :=
  (Text.dropFront? versionFront sort).bind fun digits =>
    (Text.natural? UInt32.size digits).map UInt32.ofNat

theorem readVersion?_version (n : UInt32) : readVersion? (version n) = some n := by
  have hread : Text.natural? UInt32.size (Text.decimal n.toNat) = some n.toNat :=
    Text.natural?_decimal n.toNat_lt
  simp [readVersion?, version, hread]

theorem version_injective {n m : UInt32} (h : version n = version m) : n = m := by
  have hread := readVersion?_version n
  rw [h, readVersion?_version] at hread
  exact (Option.some.inj hread).symm

theorem document_ne_version (n : UInt32) : document ≠ version n := by
  intro h
  have hfront : Text.beginsWith versionFront document := by
    rw [h]
    exact Text.beginsWith_append _ _
  exact absurd hfront (by decide)

def tags : String := "tags#"

def tag (key : String) : String := tags ++ key

def attributes : String := "attr#"

def attributeKey (key : String) : String := attributes ++ key ++ delimiter

def folder (name : String) : String := "ff#" ++ name

def leaf (name : String) : String := "fi#" ++ name

def leafLookup : String := "folder"

end SortKey

def keyOnlyValue : String := "#"

end Cabinet
