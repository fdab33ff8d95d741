import Cabinet.Text.Blank
import Cabinet.Text.Natural

/-! Reading from the front of a text. -/

namespace Cabinet

/-- Takes what it reads from the front and leaves the rest, or fails. -/
abbrev Scan := StateT (List Char) Option

namespace Scan

def blanks : Scan Unit := modify Text.trimLeft

def char (c : Char) : Scan Unit := do
  match ← get with
  | x :: rest => if x = c then set rest else failure
  | [] => failure

/-- One or more digits, as many as there are up to `most`: their number and their count. -/
def number (most : Nat) : Scan (Nat × Nat) := do
  let digits := ((← get).take most).takeWhile Text.isDigit
  if digits = [] then failure
  set ((← get).drop digits.length)
  return (Text.ofDigits digits, digits.length)

def whole? {α : Type} (scan : Scan α) (s : String) : Option α :=
  match scan s.toList with
  | some (a, []) => some a
  | _ => none

end Scan

end Cabinet
