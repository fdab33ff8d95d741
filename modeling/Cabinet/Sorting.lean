/-! Sorting by insertion. Equals keep their places. -/

namespace Cabinet

/-- Puts `a` in front of the first element that is not before it. -/
def insertBy {α : Type} (before : α → α → Bool) (a : α) : List α → List α
  | [] => [a]
  | b :: bs => if before b a then b :: insertBy before a bs else a :: b :: bs

def sortBy {α : Type} (before : α → α → Bool) : List α → List α
  | [] => []
  | a :: as => insertBy before a (sortBy before as)

end Cabinet
