import Cabinet.Calendar.Instant
import Cabinet.Text.Scan

/-! Reading instants written as a date, a time of day and an offset from universal time. Blanks may
stand before each number and separator, and numbers may leave out leading zeros. -/

namespace Cabinet

namespace Scan

def numberWithin (low high most : Nat) : Scan Nat := do
  blanks
  let (n, _) ← number most
  if low ≤ n ∧ n ≤ high then return n else failure

def twoDigits : Scan Nat := do
  let (n, count) ← number 2
  if count = 2 then return n else failure

/-- A year: four digits at most, or any number of them after a sign. -/
def year : Scan Int := do
  blanks
  match ← get with
  | '-' :: rest => set rest; return -((← number rest.length).1 : Int)
  | '+' :: rest => set rest; return ((← number rest.length).1 : Int)
  | _ => return ((← number 4).1 : Int)

/-- Nine digits after a point count; further ones are skipped. -/
def nanoseconds : Scan Nat := do
  match ← get with
  | '.' :: rest =>
    set rest
    let (n, count) ← number 9
    modify (·.dropWhile Text.isDigit)
    return n * Nat.pow 10 (9 - count)
  | _ => return 0

def offset : Scan Int := do
  match ← get with
  | 'Z' :: rest | 'z' :: rest => set rest; return 0
  | u :: t :: c :: rest =>
    if [u, t, c].map Char.toLower = ['u', 't', 'c'] then
      set rest; return 0
    let west ← if u = '+' then pure false else if u = '-' ∨ u = '−' then pure true else failure
    set (t :: c :: rest)
    let hours ← twoDigits
    modify (·.dropWhile fun c => c = ':' || Text.isBlank c)
    let minutes ← twoDigits
    if minutes ≥ 60 ∨ hours ≥ 24 then failure
    let seconds : Int := hours * 3600 + minutes * 60
    return if west then -seconds else seconds
  | _ => failure

/-- The calendar has to cover the instant both at its offset and in universal time. -/
def instant : Scan Instant := do
  let year ← year
  blanks; char '-'
  let month ← numberWithin 1 12 2
  blanks; char '-'
  let day ← numberWithin 1 31 2
  match ← get with
  | 'T' :: rest | 't' :: rest | ' ' :: rest => set rest
  | _ => failure
  let hour ← numberWithin 0 23 2
  blanks; char ':'
  let minute ← numberWithin 0 59 2
  blanks; char ':'
  let second ← numberWithin 0 60 2
  let nanosecond ← nanoseconds
  blanks
  let east ← offset
  blanks
  let some date := Day.exists? year month day | failure
  let leap : Nat := if second = 60 then 1 else 0
  let here : Int := date.number * 86400 + (hour * 3600 + minute * 60 + (second - leap) : Nat)
  if !Instant.isCovered here || !Instant.isCovered (here - east) then failure
  return ⟨here - east, nanosecond + leap * 1000000000⟩

def day : Scan Day := do
  let year ← year
  char '-'
  let (month, _) ← number 2
  char '-'
  let (day, _) ← number 2
  match Day.exists? year month day with
  | some d => return d
  | none => failure

end Scan

def Instant.read? (s : String) : Option Instant := Scan.instant.whole? s

def Day.read? (s : String) : Option Day := Scan.day.whole? s

end Cabinet
