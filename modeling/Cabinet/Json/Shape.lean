import Cabinet.Json.Basic

/-! The shapes that stored values have: structures by field names or by position, and words for
the cases of an enumeration. -/

namespace Cabinet.Json

/-- The values of the named members, each at most once; others are passed over. A list has the
fields in order. -/
def fields? (names : List String) : Json → Option (List (Option Json))
  | .object members => names.mapM fun name =>
    match members.filter fun m => m.1 = name with
    | [] => some none
    | [(_, v)] => some (some v)
    | _ => none
  | .array values => if values.length = names.length then some (values.map some) else none
  | _ => none

def optional? {α : Type} (read : Json → Option α) : Option Json → Option (Option α)
  | none | some .null => some none
  | some v => (read v).map some

def required? {α : Type} (read : Json → Option α) : Option Json → Option α
  | none => none
  | some v => read v

def string? : Json → Option String
  | .string s => some s
  | _ => none

def boolean? : Json → Option Bool
  | .boolean b => some b
  | _ => none

def natural? (bound : Nat) : Json → Option Nat
  | .natural n => if n.toNat < bound then some n.toNat else none
  | _ => none

def number? : Json → Option Binary64
  | .natural n => some (.nearest false n.toNat 1)
  | .negative n => some (.nearest true n.toNat 1)
  | .real x => some x
  | _ => none

def strings? : Json → Option (List String)
  | .array values => values.mapM string?
  | _ => none

/-- A case without content: its word, alone or as the only name of an object, which holds nothing
under it. -/
def case? : Json → Option String
  | .string s => some s
  | .object [(s, .null)] | .object [(s, .object [])] => some s
  | _ => none

/-- What is under `tag`, and the members without it; of a list, its first and its other values. -/
def tagged? (tag : String) : Json → Option (String × Json)
  | .object members =>
    match members.filter fun m => m.1 = tag with
    | [(_, .string s)] => some (s, .object (members.filter fun m => m.1 ≠ tag))
    | _ => none
  | .array (.string s :: values) => some (s, .array values)
  | _ => none

end Cabinet.Json
