import Cabinet.Store.Basic

/-! Going from page to page of a query. Each page has a token; a chain of tokens leads back from
each to the first. -/

namespace Cabinet

structure PageRequest where
  limit : Option Int := none
  next : Option TokenId := none
  previous : Option TokenId := none
  deriving DecidableEq

/-- The token that a page is served with, and whether it is stored already. -/
structure Cursor where
  token : Token
  stored : Bool
  deriving DecidableEq

structure Page (α : Type) where
  items : List α
  next : Option TokenId := none
  previous : Option TokenId := none
  deriving DecidableEq

def Page.withItems {α β : Type} (page : Page α) (items : List β) : Page β := { page with items }

namespace Paging

/-- A limit that is missing or not positive is the default; a large one is capped. -/
def clampLimit (c : Config) : Option Int → Nat
  | some n => if 0 < n then min n.toNat (max c.maxPageLimit 1) else max c.defaultPageLimit 1
  | none => max c.defaultPageLimit 1

def issue : Action TokenId := do
  let store ← get
  set { store with issued := store.issued + 1 }
  return .issued store.issued

def firstPage (limit : Nat) : Action Cursor := do
  return ⟨{ id := ← issue, limit }, false⟩

def load (field : String) (id : TokenId) : Action Token := do
  let store ← get
  match store.cache.read? store.clock.now id with
  | none => throw (.invalid [⟨field, "pagination token not found or expired"⟩])
  | some stored =>
    match stored.token? with
    | some token => return token
    | none => throw .unreadableToken

def save (c : Config) (token : Token) : Action Unit :=
  modify fun store =>
    let now := store.clock.now
    let expires := Clock.after now c.tokenLife
    { store with cache := store.cache.write now token.id (.token token) expires }

/-- Finds the token that a page request asks for. In front of a first page stands a first page
with the same limit. -/
def resolve (c : Config) (request : PageRequest) : Action Cursor := do
  match request.next, request.previous with
  | some _, some _ => throw (.invalid [⟨"previous", "next and previous cannot both be set"⟩])
  | some next, none => return ⟨← load "next" next, true⟩
  | none, some previous =>
    let current ← load "previous" previous
    match current.previous with
    | some id => return ⟨← load "previous" id, true⟩
    | none => firstPage current.limit
  | none, none => firstPage (clampLimit c request.limit)

/-- Stores the token of a page that has been served and, when more rows follow, the token of the
next page. The answer links to both neighbours; a first page has none in front. -/
def complete (c : Config) (cursor : Cursor) (last : Option PageKey) :
    Action (Option TokenId × Option TokenId) := do
  if !cursor.stored then
    save c { cursor.token with hasNext := last.isSome }
  let next ← match last with
    | none => pure none
    | some start => do
      let token := cursor.token.next (← issue) start
      save c token
      pure (some token.id)
  return (next, cursor.token.previous.map fun _ => cursor.token.id)

def query (c : Config) (q : Query) (request : PageRequest) : Action (Page Row) := do
  let cursor ← resolve c request
  let table ← Action.table
  let found := table.query { q with limit := cursor.token.limit, start := cursor.token.start }
  let (next, previous) ← complete c cursor found.last
  return { items := found.rows, next, previous }

end Paging

end Cabinet
