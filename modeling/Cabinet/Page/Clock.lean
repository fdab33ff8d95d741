import Cabinet.Calendar.Instant

/-! A clock that is set by hand, in milliseconds since 1970-01-01T00:00:00Z. -/

namespace Cabinet

structure Clock where
  millis : Int64
  deriving DecidableEq

namespace Clock

def earliest : Int := Instant.firstSecond * 1000000000

def latest : Int := Instant.lastSecond * 1000000000 + 999999999

/-- The reading in nanoseconds; a value that the calendar does not cover reads as its first
instant. -/
def now (c : Clock) : Int :=
  let n := c.millis.toInt * 1000000
  if earliest ≤ n ∧ n ≤ latest then n else earliest

def nowMillis (c : Clock) : Int := c.now / 1000000

/-- Moves the clock ahead by at most the largest word; past that word it starts again from the
smallest. -/
def advance (c : Clock) (millis : Nat) : Clock :=
  ⟨c.millis + Int64.ofNat (min millis 9223372036854775807)⟩

/-- The end of a life that starts now. No life goes past the last instant. -/
def after (now : Int) (millis : Nat) : Int := min (now + millis * 1000000) latest

end Clock

end Cabinet
