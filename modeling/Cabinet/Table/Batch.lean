import Cabinet.Distinct
import Cabinet.Table.Basic

/-! Reading many keys of several collections in as few batches as the table allows. -/

namespace Cabinet

structure BatchRequest where
  wanted : List (String × Address) := []

namespace BatchRequest

def add (r : BatchRequest) (name : String) (key : Address) : BatchRequest :=
  ⟨r.wanted ++ [(name, key)]⟩

def extend (r : BatchRequest) (name : String) (keys : List Address) : BatchRequest :=
  ⟨r.wanted ++ keys.map (name, ·)⟩

def collections (r : BatchRequest) : List String :=
  distinct (fun a b => a < b) (r.wanted.map (·.1))

def keys (r : BatchRequest) (name : String) : List Address :=
  distinct (fun a b => a < b) ((r.wanted.filter (·.1 = name)).map (·.2))

def size (r : BatchRequest) : Nat :=
  r.collections.foldr (fun name n => (r.keys name).length + n) 0

end BatchRequest

namespace Batch

def chunksFrom {α : Type} (size : Nat) (started : List α) : List α → List (List α)
  | [] => if started = [] then [] else [started]
  | a :: as =>
    if started.length + 1 < size then chunksFrom size (started ++ [a]) as
    else (started ++ [a]) :: chunksFrom size [] as

def chunks {α : Type} (size : Nat) (as : List α) : List (List α) := chunksFrom size [] as

def readChunks (name : String) : List (List Address) → Table → Except Error (List Row) × Table
  | [], t => (.ok [], t)
  | keys :: rest, t =>
    match t.batchGet name keys with
    | .error e => (.error e, t)
    | .ok (rows, t) =>
      match readChunks name rest t with
      | (.ok more, t) => (.ok (rows ++ more), t)
      | (.error e, t) => (.error e, t)

def chunkSize (size : Nat) (t : Table) : Nat := min (max size 1) (max t.maxBatchSize 1)

def readCollections (size : Nat) (r : BatchRequest) :
    List String → Table → Except Error (List (String × List Row)) × Table
  | [], t => (.ok [], t)
  | name :: rest, t =>
    match readChunks name (chunks size (r.keys name)) t with
    | (.error e, t) => (.error e, t)
    | (.ok rows, t) =>
      match readCollections size r rest t with
      | (.error e, t) => (.error e, t)
      | (.ok found, t) => (.ok (if rows = [] then found else (name, rows) :: found), t)

/-- The rows found, by collection and in order; collections without any are left out. -/
def read (size : Nat) (r : BatchRequest) (t : Table) :
    Except Error (List (String × List Row)) × Table :=
  readCollections (chunkSize size t) r r.collections t

end Batch

end Cabinet
