import Cabinet.Key.Partition
import Cabinet.Text.Affix
import Cabinet.Text.Pieces

/-! Paths of documents: names with slashes between. Slashes at either end or side by side count for
nothing, except that a path with a slash at its end is a folder. -/

namespace Cabinet.Path

def segments (path : String) : List String := (Text.splitAt '/' path).filter (· ≠ "")

def join (names : List String) : String := Text.joinWith "/" names

def normalize (path : String) : String := join (segments path)

def namesFolder (path : String) : Bool := Text.endsWith "/" path

def split? (path : String) : Option (String × String) :=
  (segments path).getLast?.map fun name => (join (segments path).dropLast, name)

def folderKey (t : Tenant) (path : String) : String := t.key ("folders#" ++ normalize path)

end Cabinet.Path
