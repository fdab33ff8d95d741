import Cabinet.Calendar.Day

/-! Instants in universal time, to the nanosecond, and their text. -/

namespace Cabinet

/-- Seconds since 1970-01-01T00:00:00Z and nanoseconds in that second. A leap second is the second
before it with 1000000000 nanoseconds or more. -/
structure Instant where
  second : Int
  nanosecond : Nat
  deriving DecidableEq

namespace Instant

def firstSecond : Int := -8334601228800

def lastSecond : Int := 8210266876799

def isCovered (second : Int) : Bool := firstSecond ≤ second && second ≤ lastSecond

def day (t : Instant) : Day := Day.ofNumber (t.second / 86400)

def secondOfDay (t : Instant) : Nat := (t.second % 86400).toNat

def wholeText (t : Instant) : String :=
  t.day.text ++ "T" ++ Text.padded 2 (t.secondOfDay / 3600) ++ ":" ++
    Text.padded 2 (t.secondOfDay / 60 % 60) ++ ":" ++
    Text.padded 2 (t.secondOfDay % 60 + t.nanosecond / 1000000000)

/-- Three digits of the fraction, the rest cut off: texts of one day sort as the instants do. -/
def millisecondText (t : Instant) : String :=
  t.wholeText ++ "." ++ Text.padded 3 (t.nanosecond % 1000000000 / 1000000) ++ "Z"

/-- Whole seconds, milli-, micro- or nanoseconds, the coarsest that loses nothing. -/
def text (t : Instant) : String :=
  let fraction := t.nanosecond % 1000000000
  let shown :=
    if fraction = 0 then ""
    else if fraction % 1000000 = 0 then "." ++ Text.padded 3 (fraction / 1000000)
    else if fraction % 1000 = 0 then "." ++ Text.padded 6 (fraction / 1000)
    else "." ++ Text.padded 9 fraction
  t.wholeText ++ shown ++ "Z"

end Instant

end Cabinet
