import Cabinet.Json.Reading
import Cabinet.Json.Shape
import Cabinet.Record.Reading
import Cabinet.Table.Query

/-! Page tokens: what is remembered of a page so that its neighbours can be asked for. -/

namespace Cabinet

/-- The identity of a token. An issued one is like no other and like no name. -/
inductive TokenId where
  | issued (n : Nat)
  | named (name : String)
  deriving DecidableEq

structure Token where
  id : TokenId
  limit : Nat
  start : Option PageKey := none
  previous : Option TokenId := none
  hasNext : Bool := false
  deriving DecidableEq

namespace Token

def isFirstPage (token : Token) : Bool := token.previous.isNone

def next (current : Token) (id : TokenId) (start : PageKey) : Token where
  id
  limit := current.limit
  start := some start
  previous := some current.id
  hasNext := true

end Token

/-- What is stored under the identity of a token: a token, or a text written there by hand. -/
inductive Stored where
  | token (t : Token)
  | text (s : String)
  deriving DecidableEq

def PageKey.ofJson? (v : Json) : Option PageKey := do
  let [primary, entry] ← Json.fields? ["primary", "index"] v | none
  return {
    primary := ← Json.required? Address.ofJson? primary
    entry := ← Json.optional? Address.ofJson? entry }

def Token.ofJson? (v : Json) : Option Token := do
  let [id, limit, start, previous, hasNext] ←
    Json.fields? ["id", "limit", "start_key", "previous_id", "has_next"] v | none
  return {
    id := .named (← Json.required? Json.string? id)
    limit := ← Json.required? (Json.natural? UInt64.size) limit
    start := ← Json.optional? PageKey.ofJson? start
    previous := (← Json.optional? Json.string? previous).map .named
    hasNext := ← Json.required? Json.boolean? hasNext }

def Stored.token? : Stored → Option Token
  | .token t => some t
  | .text s => (Json.read? s).bind Token.ofJson?

end Cabinet
