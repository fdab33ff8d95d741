/-! Values that are kept for a while. Entries that have expired are dropped by the next write. -/

namespace Cabinet

structure Cache (κ α : Type) where
  entries : List (κ × α × Int) := []

namespace Cache

variable {κ α : Type} [DecidableEq κ]

/-- Entries live until the instant they expire at, which is not part of their life. -/
def live (cache : Cache κ α) (now : Int) : List (κ × α × Int) :=
  cache.entries.filter fun (_, _, expires) => now < expires

def write (cache : Cache κ α) (now : Int) (key : κ) (value : α) (expires : Int) : Cache κ α :=
  ⟨(key, value, expires) :: (cache.live now).filter (·.1 ≠ key)⟩

def read? (cache : Cache κ α) (now : Int) (key : κ) : Option α :=
  ((cache.live now).find? (·.1 = key)).map (·.2.1)

def liveCount (cache : Cache κ α) (now : Int) : Nat := (cache.live now).length

end Cache

end Cabinet
