import Cabinet.Text.Natural
import Cabinet.Number.Binary64

/-! Reading a number in decimal notation as the nearest binary64 number. -/

namespace Cabinet

/-- The number `digits · 10 ^ exponent`, up to its sign. -/
structure Decimal where
  negative : Bool
  digits : Nat
  exponent : Int

namespace Decimal

/-- The nearest binary64 number. Every magnitude of at least `10 ^ 310` is infinite and every one
below `10 ^ -330` is a zero, so no power of ten beyond these is computed. -/
def toBinary64 (d : Decimal) : Binary64 :=
  let leading : Int := (Nat.toDigits 10 d.digits).length + d.exponent
  if d.digits = 0 ∨ leading < -330 then Binary64.ofNat d.negative 0
  else if 310 < leading then Binary64.infinity d.negative
  else .nearest d.negative (d.digits * Nat.pow 10 d.exponent.toNat) (Nat.pow 10 (-d.exponent).toNat)

def splitSign : List Char → Bool × List Char
  | '-' :: cs => (true, cs)
  | '+' :: cs => (false, cs)
  | cs => (false, cs)

def exponent? (cs : List Char) : Option Int :=
  let (negative, digits) := splitSign cs
  (Text.digits? digits).map fun n => if negative then -(n : Int) else n

def mantissa? (cs : List Char) : Option (Nat × Nat) :=
  let whole := cs.takeWhile Text.isDigit
  match cs.dropWhile Text.isDigit with
  | [] => if whole = [] then none else some (Text.ofDigits whole, 0)
  | '.' :: places =>
    if places.all Text.isDigit ∧ whole ++ places ≠ [] then
      some (Text.ofDigits (whole ++ places), places.length)
    else none
  | _ :: _ => none

def magnitude? (negative : Bool) (cs : List Char) : Option Decimal := do
  let front := cs.takeWhile fun c => c ≠ 'e' && c ≠ 'E'
  let (digits, places) ← mantissa? front
  let shift ← match cs.dropWhile fun c => c ≠ 'e' && c ≠ 'E' with
    | [] => some 0
    | _ :: power => exponent? power
  return ⟨negative, digits, shift - places⟩

/-- Reads a number: an optional sign, then digits, or `inf`, `infinity` or `nan` in any case. -/
def read? (s : String) : Option Binary64 :=
  let (negative, cs) := splitSign s.toList
  let word := String.ofList (cs.map Char.toLower)
  if word = "inf" ∨ word = "infinity" then some (Binary64.infinity negative)
  else if word = "nan" then some Binary64.nan
  else (magnitude? negative cs).map toBinary64

end Decimal

end Cabinet
