import Cabinet.Text.Natural
import Cabinet.Number.Binary64

/-! Numbers written with a fixed number of decimal places, padded with zeros to a least width. -/

namespace Cabinet

structure FixedPoint where
  places : Nat
  width : Nat

namespace FixedPoint

def unitsPerOne (form : FixedPoint) : Nat := Nat.pow 10 form.places

def units (form : FixedPoint) (x : Binary64) : Nat :=
  Number.roundDiv (x.numerator * form.unitsPerOne) x.denominator

def magnitudeText (form : FixedPoint) (x : Binary64) : String :=
  if x.isNaN then "NaN"
  else if x.isFinite then
    Text.decimal (form.units x / form.unitsPerOne) ++ "." ++
      Text.padded form.places (form.units x % form.unitsPerOne)
  else "inf"

def signText (x : Binary64) : String := if x.negative && !x.isNaN then "-" else ""

def render (form : FixedPoint) (x : Binary64) : String :=
  let zeros := form.width - ((signText x).length + (form.magnitudeText x).length)
  signText x ++ String.ofList (List.replicate zeros '0') ++ form.magnitudeText x

end FixedPoint

end Cabinet
