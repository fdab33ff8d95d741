import Cabinet.Json.Basic
import Cabinet.Number.Decimal
import Cabinet.Text.Scan

/-! Numbers of JSON texts: whole numbers that fit a word are kept as they are, and any other number
counts as the nearest binary64 number. -/

namespace Cabinet.Json

def ofDecimal (d : Decimal) : Json :=
  if d.toBinary64.isFinite then .real d.toBinary64 else .valueless

/-- A number without fraction and exponent. A zero with a minus sign is no whole number. -/
def ofWhole (negative : Bool) (n : Nat) : Json :=
  if !negative && n < UInt64.size then .natural (UInt64.ofNat n)
  else if negative && 0 < n && n ≤ 9223372036854775808 then .negative (UInt64.ofNat n)
  else ofDecimal ⟨negative, n, 0⟩

/-- The digits before the point: a zero alone, or any that do not begin with a zero. -/
def wholeDigits : Scan (List Char) := do
  let digits := (← get).takeWhile Text.isDigit
  set ((← get).drop digits.length)
  match digits with
  | [] => failure
  | '0' :: _ :: _ => failure
  | digits => return digits

def places? : Scan (Option (List Char)) := do
  match ← get with
  | '.' :: rest =>
    let digits := rest.takeWhile Text.isDigit
    set (rest.drop digits.length)
    if digits = [] then failure else return some digits
  | _ => return none

def exponent? : Scan (Option Int) := do
  match ← get with
  | 'e' :: rest | 'E' :: rest =>
    let (below, digits) := Decimal.splitSign rest
    set digits
    let (n, _) ← Scan.number digits.length
    return some (if below then -(n : Int) else n)
  | _ => return none

def unsignedNumber (negative : Bool) : Scan Json := do
  let whole ← wholeDigits
  let places ← places?
  let exponent ← exponent?
  if places.isNone && exponent.isNone then return ofWhole negative (Text.ofDigits whole)
  let places := places.getD []
  let digits := Text.ofDigits (whole ++ places)
  return ofDecimal ⟨negative, digits, exponent.getD 0 - places.length⟩

end Cabinet.Json
