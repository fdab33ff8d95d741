import Cabinet.Json.Number

/-! Reading JSON texts. -/

namespace Cabinet.Json

def isSpace (c : Char) : Bool := c = ' ' || c = '\t' || c = '\n' || c = '\r'

def spaces : Scan Unit := modify (·.dropWhile isSpace)

def word (cs : List Char) : Scan Unit := do
  if cs.isPrefixOf (← get) then set ((← get).drop cs.length) else failure

def hexDigit? (c : Char) : Option Nat :=
  if '0' ≤ c ∧ c ≤ '9' then some (c.toNat - '0'.toNat)
  else if 'a' ≤ c ∧ c ≤ 'f' then some (c.toNat - 'a'.toNat + 10)
  else if 'A' ≤ c ∧ c ≤ 'F' then some (c.toNat - 'A'.toNat + 10)
  else none

def hex? (cs : List Char) : Option Nat :=
  cs.foldl (fun n c => do return (← n) * 16 + (← hexDigit? c)) (some 0)

def escaped? : Char → Option Nat
  | '"' => some 0x22
  | '\\' => some 0x5C
  | '/' => some 0x2F
  | 'b' => some 0x08
  | 'f' => some 0x0C
  | 'n' => some 0x0A
  | 'r' => some 0x0D
  | 't' => some 0x09
  | _ => none

/-- The code points of a string up to its closing quote, surrogates as they are escaped. -/
def codePoints : List Char → Option (List Nat × List Char)
  | [] => none
  | '"' :: rest => some ([], rest)
  | '\\' :: 'u' :: a :: b :: c :: d :: rest => do
    let n ← hex? [a, b, c, d]
    let (points, rest) ← codePoints rest
    return (n :: points, rest)
  | '\\' :: c :: rest => do
    let n ← escaped? c
    let (points, rest) ← codePoints rest
    return (n :: points, rest)
  | c :: rest => do
    if c.toNat < 0x20 then failure
    let (points, rest) ← codePoints rest
    return (c.toNat :: points, rest)

def joinSurrogates? : List Nat → Option (List Char)
  | [] => some []
  | high :: rest =>
    if 0xD800 ≤ high ∧ high < 0xDC00 then
      match rest with
      | low :: rest =>
        if 0xDC00 ≤ low ∧ low < 0xE000 then
          (joinSurrogates? rest).map
            (Char.ofNat (0x10000 + (high - 0xD800) * 0x400 + (low - 0xDC00)) :: ·)
        else none
      | [] => none
    else if 0xDC00 ≤ high ∧ high < 0xE000 then none
    else (joinSurrogates? rest).map (Char.ofNat high :: ·)

def stringBody : Scan (Option String) := do
  let (points, rest) ← codePoints (← get)
  set rest
  return (joinSurrogates? points).map String.ofList

def ofMembers (members : List (Option String × Json)) : Json :=
  let named (m : Option String × Json) : Option (String × Json) := m.1.map (·, m.2)
  (members.mapM named).elim .valueless .object

mutual

/-- A value and the blanks before it; `fuel` bounds the values still to come. -/
def value : Nat → Scan Json
  | 0 => failure
  | fuel + 1 => do
    spaces
    match ← get with
    | 'n' :: _ => word ['n', 'u', 'l', 'l']; return .null
    | 't' :: _ => word ['t', 'r', 'u', 'e']; return .boolean true
    | 'f' :: _ => word ['f', 'a', 'l', 's', 'e']; return .boolean false
    | '"' :: rest => set rest; return (← stringBody).elim .valueless .string
    | '-' :: rest => set rest; unsignedNumber true
    | '[' :: rest =>
      set rest
      spaces
      match ← get with
      | ']' :: rest => set rest; return .array []
      | _ => return .array (← elements fuel)
    | '{' :: rest =>
      set rest
      spaces
      match ← get with
      | '}' :: rest => set rest; return .object []
      | _ => return ofMembers (← members fuel)
    | _ => unsignedNumber false

def elements : Nat → Scan (List Json)
  | 0 => failure
  | fuel + 1 => do
    let first ← value fuel
    spaces
    match ← get with
    | ',' :: rest => set rest; return first :: (← elements fuel)
    | ']' :: rest => set rest; return [first]
    | _ => failure

def members : Nat → Scan (List (Option String × Json))
  | 0 => failure
  | fuel + 1 => do
    spaces
    Scan.char '"'
    let name ← stringBody
    spaces
    Scan.char ':'
    let first ← value fuel
    spaces
    match ← get with
    | ',' :: rest => set rest; return (name, first) :: (← members fuel)
    | '}' :: rest => set rest; return [(name, first)]
    | _ => failure

end

/-- Reads a text that holds one value and blanks. Each value takes a character of its own, so the
length of the text is fuel enough. -/
def read? (s : String) : Option Json :=
  Scan.whole? (do
    let v ← value (2 * s.length + 2)
    spaces
    return v) s

end Cabinet.Json
