import Cabinet.Proofs.Store.Isolation
import Cabinet.Proofs.Store.Serving

/-! Going through the pages of a query whose rows stay the same. Main statement: whichever links are
followed in whatever order, and whatever else is asked for meanwhile, a link leads to the part of the
rows that its number says. -/

namespace Cabinet

/-- The first page of a query, or a neighbour of a page that has been served. -/
inductive Link where
  | first
  | next (id : TokenId)
  | previous (id : TokenId)
  deriving DecidableEq

def Link.request (limit : Option Int) : Link → PageRequest
  | .first => { limit }
  | .next id => { limit, next := some id }
  | .previous id => { limit, previous := some id }

def Answer.links : Answer → Option TokenId × Option TokenId
  | .documentPage page => (page.next, page.previous)
  | .tagPage page => (page.next, page.previous)
  | .nodePage page => (page.next, page.previous)
  | _ => (none, none)

def Link.givenOn (k : Nat) : Except Error Answer → List (Link × Nat)
  | .ok answer =>
    answer.links.1.toList.map (fun id => (.next id, k + 1)) ++
      answer.links.2.toList.map (fun id => (.previous id, k - 1))
  | .error _ => []

namespace Operation

/-- The requests that are answered from pages of one query, with the query and the answer for a page
of its rows. -/
inductive Pages (c : Config) (t : Tenant) :
    Operation → Query → (Table → Page Row → Except Error Answer) → Prop
  | day (day : Day) (request : PageRequest) :
    Pages c t (.listDocumentsByDate day request)
      { index := .first, partition := Partition.day t day.text }
      fun _ page => .ok (.documentPage (Store.documentsOnly page))
  | deletedDay (day : Day) (request : PageRequest) :
    Pages c t (.listDeletedDocuments day request)
      { index := .first, partition := SoftDelete.markKey t (Partition.day t day.text) }
      fun _ page => .ok (.documentPage (Store.documentsOnly page))
  | folder (path : String) (request : PageRequest) :
    Pages c t (.listFolder path request)
      { index := .primary, partition := Path.folderKey t path }
      fun _ page => .ok (.nodePage (page.withItems (page.items.filterMap Folder.ofRow?)))
  | tag (key : String) (request : PageRequest) :
    Pages c t (.searchTags key none request) { index := .second, partition := Partition.tag t key }
      fun _ page =>
        .ok (.tagPage (page.withItems (firstsBy Tag.documentId (page.items.filterMap Row.tag?))))
  | tagValue (key value : String) (request : PageRequest) :
    Pages c t (.searchTags key (some value) request)
      { index := .first, partition := Partition.tagValue t key value }
      fun _ page =>
        .ok (.tagPage (page.withItems (firstsBy Tag.documentId (page.items.filterMap Row.tag?))))
  | search {criteria : Criteria} {condition : Condition} (request : PageRequest)
    (hplan : criteria.compile.plan = .single condition)
    (hgroup : criteria.isComposite → c.hasGroup criteria.keys) :
    Pages c t (.search criteria request)
      { index := .first, partition := Partition.attributeKey t criteria.compile.key
        condition := some condition }
      fun T page => (T.lookUp c t (Store.matchedIds page.items)).1.map fun documents =>
        .documentPage (page.withItems documents)

variable {c : Config} {t : Tenant} {op : Operation} {q : Query}
  {answer : Table → Page Row → Except Error Answer}

namespace Pages

theorem start_eq_none (h : Pages c t op q answer) : q.start = none := by
  cases h <;> rfl

theorem withPage (h : Pages c t op q answer) (request : PageRequest) :
    Pages c t (op.withPage request) q answer := by
  cases h with
  | day day => exact .day day request
  | deletedDay day => exact .deletedDay day request
  | folder path => exact .folder path request
  | tag key => exact .tag key request
  | tagValue key value => exact .tagValue key value request
  | search _ hplan hgroup => exact .search request hplan hgroup

theorem links_of_answer (h : Pages c t op q answer) {T : Table} {page : Page Row} {a : Answer}
    (ha : answer T page = .ok a) : a.links = (page.next, page.previous) := by
  cases h with
  | search =>
    cases hfound : (T.lookUp c t (Store.matchedIds page.items)).1 with
    | error e => simp [hfound, Except.map] at ha
    | ok documents =>
      simp only [hfound, Except.map, Except.ok.injEq] at ha
      rw [← ha]
      rfl
  | _ => rw [← Except.ok.inj ha]; rfl

theorem not_refused {criteria : Criteria} (h : criteria.isComposite → c.hasGroup criteria.keys) :
    (criteria.isComposite && !c.hasGroup criteria.keys) = false := by
  cases hcomposite : criteria.isComposite with
  | false => rfl
  | true => simp [h hcomposite]

theorem run_perform (h : Pages c t op q answer) (request : PageRequest) {s s' : Store}
    {page : Page Row} (hquery : (Paging.query c q request).run s = (.ok page, s')) :
    ∃ n, ((op.withPage request).perform c t).run s = (answer s'.table page,
      { s' with table := { s'.table with batchCalls := n } }) := by
  cases h with
  | folder path =>
    refine ⟨s'.table.batchCalls, ?_⟩
    simp only [Operation.withPage, perform, Store.listFolder_eq, Action.run_bind, hquery]
    rfl
  | search _ hplan hgroup =>
    rename_i criteria condition _
    obtain ⟨n, hn⟩ := s'.table.lookUp_table c t (Store.matchedIds page.items)
    refine ⟨n, ?_⟩
    simp only [Operation.withPage, perform, Store.search, not_refused hgroup, Action.run_bind, hplan]
    rw [if_neg Bool.false_ne_true]
    simp only [Action.run_bind, Action.run_pure, hquery, Store.run_findDocuments, hn]
    cases (s'.table.lookUp c t (Store.matchedIds page.items)).1 <;> rfl
  | _ =>
    refine ⟨s'.table.batchCalls, ?_⟩
    simp only [Operation.withPage, perform, Store.listDocumentsByDate, Store.listDeletedDocuments,
      Store.searchTags, Action.run_bind, hquery]
    rfl

theorem exists_page (h : Pages c t op q answer) {request : PageRequest} {s : Store} {a : Answer}
    (ha : (((op.withPage request).perform c t).run s).1 = .ok a) :
    ∃ page s', (Paging.query c q request).run s = (.ok page, s') ∧ answer s'.table page = .ok a := by
  rcases hquery : (Paging.query c q request).run s with ⟨e | page, s'⟩
  · cases h with
    | folder path =>
      simp only [Operation.withPage, perform, Store.listFolder_eq, Action.run_bind, hquery] at ha
      cases ha
    | search _ hplan hgroup =>
      simp only [Operation.withPage, perform, Store.search, not_refused hgroup, Action.run_bind,
        hplan] at ha
      rw [if_neg Bool.false_ne_true] at ha
      simp only [Action.run_bind, hquery] at ha
      cases ha
    | _ =>
      simp only [Operation.withPage, perform, Store.listDocumentsByDate, Store.listDeletedDocuments,
        Store.searchTags, Action.run_bind, hquery] at ha
      cases ha
  · obtain ⟨n, hn⟩ := h.run_perform request hquery
    rw [hn] at ha
    exact ⟨page, s', rfl, ha⟩

/-- A request whose cursor is found is answered from the page of the cursor. -/
theorem step_eq (h : Pages c t op q answer) {s : Store} {clock : Clock} {request : PageRequest}
    {cursor : Cursor} {issued : Nat} (hresolve :
      (Paging.resolve c request).run { s with clock } = (.ok cursor, { s with clock, issued })) :
    let found := Paging.rowsAt q cursor.token s.table
    let resolved : Store := { s with clock, issued }
    ∃ calls, s.step c ⟨t, clock, op.withPage request⟩ =
      (answer s.table (Paging.pageOf cursor found resolved),
        { Paging.served c cursor found.last resolved with
          table := { s.table with batchCalls := calls } }) := by
  have hquery := Paging.run_query c q request { s with clock }
  rw [hresolve] at hquery
  obtain ⟨calls, hperform⟩ := h.run_perform request hquery
  rw [Paging.table_served] at hperform
  exact ⟨calls, hperform⟩

end Pages

end Operation

theorem Store.rows_step_of_page (c : Config) (s : Store) {r : Request}
    (h : r.operation.page?.isSome) : (s.step c r).2.table.rows = s.table.rows := by
  obtain ⟨n, hn⟩ := table_step c s r
  rw [hn]
  obtain ⟨t, clock, op⟩ := r
  cases op with
  | listDocumentsByDate | listDeletedDocuments | searchTags | search | listFolder => rfl
  | _ => cases h

def Store.Remembers (s : Store) (expiries : List Int) (token : Token) : Prop :=
  ∃ limit ∈ expiries, s.cache.Holds token.id (.token token) limit

/-- The tokens of the page with number `k` when the rows are `R` and pages have `n` rows. Each is
chained to a token of the page before it. -/
inductive Token.Numbered (q : Query) (R : List Row) (n : Nat) (s : Store) (expiries : List Int) :
    Nat → Token → Prop
  | first {token : Token} (hkept : s.Remembers expiries token) (hlimit : token.limit = n)
    (hstart : token.start = none) (hprevious : token.previous = none) :
    Numbered q R n s expiries 0 token
  | next {k : Nat} {token before : Token} (hkept : s.Remembers expiries token)
    (hlimit : token.limit = n) (hmore : (k + 1) * n < R.length)
    (hstart : token.start = Paging.startAt q R ((k + 1) * n))
    (hprevious : token.previous = some before.id)
    (hbefore : Numbered q R n s expiries k before) : Numbered q R n s expiries (k + 1) token

inductive Link.Leads (q : Query) (R : List Row) (n : Nat) (s : Store) (expiries : List Int) :
    Link → Nat → Prop
  | first : Leads q R n s expiries .first 0
  | next {k : Nat} {token : Token} (h : token.Numbered q R n s expiries k) :
    Leads q R n s expiries (.next token.id) k
  | previous {k : Nat} {token : Token} (h : token.Numbered q R n s expiries (k + 1)) :
    Leads q R n s expiries (.previous token.id) k

variable {q : Query} {R : List Row} {n k : Nat} {s s' : Store} {expiries : List Int} {token : Token}
  {c : Config}

namespace Token.Numbered

theorem kept (h : token.Numbered q R n s expiries k) : s.Remembers expiries token := by
  cases h <;> assumption

theorem limit_eq (h : token.Numbered q R n s expiries k) : token.limit = n := by
  cases h <;> assumption

theorem start_eq (h : token.Numbered q R n s expiries k) :
    token.start = Paging.startAt q R (k * n) := by
  cases h with
  | first _ _ hstart => rwa [Nat.zero_mul]
  | next _ _ _ hstart => exact hstart

theorem mul_le (h : token.Numbered q R n s expiries k) : k * n ≤ R.length := by
  cases h with
  | first => simp
  | next _ _ hmore => exact Nat.le_of_lt hmore

theorem isSome_previous (h : token.Numbered q R n s expiries k) :
    token.previous.isSome ↔ 0 < k := by
  cases h with
  | first _ _ _ hprevious => simp [hprevious]
  | next _ _ _ _ hprevious => simp [hprevious]

theorem of_kept (h : token.Numbered q R n s expiries k) {more : List Int}
    (hkept : ∀ token, s.Remembers expiries token → s'.Remembers more token) :
    token.Numbered q R n s' more k := by
  induction h with
  | first h hlimit hstart hprevious => exact .first (hkept _ h) hlimit hstart hprevious
  | next h hlimit hmore hstart hprevious _ ih =>
    exact .next (hkept _ h) hlimit hmore hstart hprevious ih

end Token.Numbered

theorem Link.Leads.of_kept {link : Link} (h : link.Leads q R n s expiries k) {more : List Int}
    (hkept : ∀ token, s.Remembers expiries token → s'.Remembers more token) :
    link.Leads q R n s' more k := by
  cases h with
  | first => exact .first
  | next h => exact .next (h.of_kept hkept)
  | previous h => exact .previous (h.of_kept hkept)

namespace Paging

/-- A cursor of the page with number `k`: a new one for the first page, or a token that is stored. -/
inductive Stands (q : Query) (R : List Row) (n : Nat) (s : Store) (expiries : List Int) :
    Nat → Cursor → Prop
  | new {m : Nat} (hm : m < s.issued) :
    Stands q R n s expiries 0 ⟨{ id := .issued m, limit := n }, false⟩
  | stored {k : Nat} {token : Token} (h : token.Numbered q R n s expiries k) :
    Stands q R n s expiries k ⟨token, true⟩

theorem resolve_of_leads {link : Link} (h : link.Leads q R n s expiries k)
    (hnow : ∀ limit ∈ expiries, s.clock.now < limit) {size : Option Int}
    (hsize : link = .first → clampLimit c size = n) :
    ∃ cursor issued, s.issued ≤ issued ∧
      (resolve c (link.request size)).run s = (.ok cursor, { s with issued }) ∧
      Stands q R n { s with issued } expiries k cursor := by
  cases h with
  | first =>
    rw [← hsize rfl]
    exact ⟨_, s.issued + 1, Nat.le_succ _, run_resolve_first c size s, .new (Nat.lt_succ_self _)⟩
  | next h =>
    obtain ⟨limit, hlimit, hholds⟩ := h.kept
    exact ⟨_, s.issued, Nat.le_refl _, run_resolve_next hholds (hnow limit hlimit) size, .stored h⟩
  | previous h =>
    obtain ⟨limit, hlimit, hholds⟩ := h.kept
    cases h with
    | next _ _ _ _ hprevious hbefore =>
      obtain ⟨limit', hlimit', hholds'⟩ := hbefore.kept
      refine ⟨_, s.issued, Nat.le_refl _, ?_, .stored hbefore⟩
      exact run_resolve_previous hholds (hnow limit hlimit) hprevious hholds' (hnow limit' hlimit')
        size

theorem Stands.found {cursor : Cursor} (h : Stands q R n s expiries k cursor)
    (hq : q.start = none) (hn : 0 < n) (hR : (q.ordered s.table.rows).map (·.2) = R) :
    rowsAt q cursor.token s.table =
      { rows := (R.drop (k * n)).take n
        last := if (k + 1) * n < R.length then startAt q R ((k + 1) * n) else none } ∧
    (cursor.token.previous.isSome ↔ 0 < k) := by
  rw [Nat.succ_mul]
  cases h with
  | new hm =>
    rw [Nat.zero_mul]
    exact ⟨query_startAt hq hR (m := 0) (Nat.zero_le _) hn, by simp⟩
  | stored h =>
    rw [rowsAt, h.limit_eq, h.start_eq]
    exact ⟨query_startAt hq hR h.mul_le hn, h.isSome_previous⟩

theorem Stands.limit_eq {cursor : Cursor} (h : Stands q R n s expiries k cursor) :
    cursor.token.limit = n := by
  cases h with
  | new => rfl
  | stored h => exact h.limit_eq

theorem Stands.current {cursor : Cursor} (h : Stands q R n s expiries k cursor) (hc : c.Valid)
    {last : Option PageKey} {more : List Int}
    (hcache : s'.cache = (Paging.served c cursor last s).cache)
    (hnow : Clock.after s.clock.now c.tokenLife ∈ more)
    (hkept : ∀ token, s.Remembers expiries token → s'.Remembers more token) :
    ∃ token : Token, token.id = cursor.token.id ∧ token.Numbered q R n s' more k := by
  cases h with
  | @new m hm =>
    have hne : TokenId.issued m ≠ .issued s.issued :=
      fun he => Nat.ne_of_lt hm (TokenId.issued.inj he)
    let token : Token := { id := .issued m, limit := n, hasNext := last.isSome }
    have hremembers : s'.Remembers more token := ⟨_, hnow, hcache ▸ holds_current hc hne⟩
    exact ⟨token, rfl, .first hremembers rfl rfl rfl⟩
  | stored h => exact ⟨_, rfl, h.of_kept hkept⟩

theorem Stands.served {cursor : Cursor} (h : Stands q R n s expiries k cursor) (hc : c.Valid)
    {found : QueryPage}
    (hlast : found.last = if (k + 1) * n < R.length then startAt q R ((k + 1) * n) else none)
    {more : List Int} (hcache : s'.cache = (served c cursor found.last s).cache)
    (hnow : Clock.after s.clock.now c.tokenLife ∈ more)
    (hkept : ∀ token, s.Remembers expiries token → s'.Remembers more token) :
    (∀ id ∈ (pageOf cursor found s).next, (Link.next id).Leads q R n s' more (k + 1)) ∧
      ∀ id ∈ (pageOf cursor found s).previous, (Link.previous id).Leads q R n s' more (k - 1) := by
  obtain ⟨current, hid, hcurrent⟩ := h.current hc hcache hnow hkept
  constructor
  · intro id hnext
    obtain ⟨start, hstart, rfl⟩ := Option.map_eq_some_iff.1 hnext
    rw [hstart] at hlast hcache
    have hmore : (k + 1) * n < R.length := by
      by_contra hend
      rw [if_neg hend] at hlast
      cases hlast
    rw [if_pos hmore] at hlast
    let token := cursor.token.next (.issued s.issued) start
    have hremembers : s'.Remembers more token := ⟨_, hnow, hcache ▸ holds_next start⟩
    have hnumbered : token.Numbered q R n s' more (k + 1) :=
      .next hremembers h.limit_eq hmore hlast (congrArg some hid.symm) hcurrent
    exact .next hnumbered
  · intro id hprevious
    obtain ⟨before, hbefore, rfl⟩ := Option.map_eq_some_iff.1 hprevious
    have hk : 0 < k := by
      cases h with
      | new => cases hbefore
      | stored h => exact h.isSome_previous.1 (hbefore ▸ rfl)
    obtain ⟨k, rfl⟩ : ∃ m, k = m + 1 := ⟨k - 1, by omega⟩
    rw [← hid]
    exact .previous hcurrent

end Paging

/-- A query is gone through by requests of tenant `t`: with the store come the links that have been
given so far, each with the number of its page, and the times up to which their tokens are kept. Other
requests, of whomever, come in between and leave the rows of the table as they are. -/
inductive Browses (c : Config) (t : Tenant) (op : Operation) (size : Option Int) (rows : Rows) :
    Store → List (Link × Nat) → List Int → Prop
  | start {s : Store} (hissued : s.HoldsIssued) (hrows : s.table.rows = rows) :
    Browses c t op size rows s [(.first, 0)] []
  | follow {s : Store} {links : List (Link × Nat)} {expiries : List Int}
    (h : Browses c t op size rows s links expiries) {link : Link} {k : Nat}
    (hlink : (link, k) ∈ links) {clock : Clock} (hclock : ∀ limit ∈ expiries, clock.now < limit)
    {limit : Option Int} (hlimit : link = .first → limit = size) {result : Except Error Answer}
    {s' : Store} (hstep : s.step c ⟨t, clock, op.withPage (link.request limit)⟩ = (result, s')) :
    Browses c t op size rows s' (Link.givenOn k result ++ links)
      (Clock.after clock.now c.tokenLife :: expiries)
  | other {s : Store} {links : List (Link × Nat)} {expiries : List Int}
    (h : Browses c t op size rows s links expiries) (r : Request)
    (hclock : ∀ limit ∈ expiries, r.clock.now < limit)
    (hrows : (s.step c r).2.table.rows = s.table.rows) :
    Browses c t op size rows (s.step c r).2 links expiries

namespace Store

variable {t : Tenant} {op : Operation} {answer : Table → Page Row → Except Error Answer}

theorem remembers_of_passes (hissued : s.HoldsIssued) {clock : Clock} {s' : Store}
    (hpasses : Passes s.issued { s with clock } s')
    (hclock : ∀ limit ∈ expiries, clock.now < limit) {more : List Int}
    (hmore : ∀ limit ∈ expiries, limit ∈ more) (token : Token)
    (h : s.Remembers expiries token) : s'.Remembers more token := by
  obtain ⟨limit, hlimit, hholds⟩ := h
  refine ⟨limit, hmore limit hlimit, ?_⟩
  exact hpasses.holds (s := { s with clock }) hissued (hclock limit hlimit) hholds

theorem step_of_leads (hc : c.Valid) (hop : Operation.Pages c t op q answer) {link : Link}
    (hissued : s.HoldsIssued) (hR : (q.ordered s.table.rows).map (·.2) = R)
    {size : Option Int} (hn : link = .first → Paging.clampLimit c size = n) (hpos : 0 < n)
    (h : link.Leads q R n s expiries k) {clock : Clock}
    (hclock : ∀ limit ∈ expiries, clock.now < limit) :
    let r : Request := ⟨t, clock, op.withPage (link.request size)⟩
    let more := Clock.after clock.now c.tokenLife :: expiries
    ∃ page : Page Row, (s.step c r).1 = answer s.table page ∧
      page.items = (R.drop (k * n)).take n ∧ (page.next.isSome ↔ (k + 1) * n < R.length) ∧
      (page.previous.isSome ↔ 0 < k) ∧ (s.step c r).2.table.rows = s.table.rows ∧
      (∀ id ∈ page.next, (Link.next id).Leads q R n (s.step c r).2 more (k + 1)) ∧
      ∀ id ∈ page.previous, (Link.previous id).Leads q R n (s.step c r).2 more (k - 1) := by
  intro r more
  have hlead : link.Leads q R n { s with clock } expiries k := h.of_kept fun _ h => h
  obtain ⟨cursor, issued, -, hresolve, hstands⟩ :=
    Paging.resolve_of_leads (c := c) hlead hclock hn
  obtain ⟨hfound, hprevious⟩ := hstands.found hop.start_eq_none hpos hR
  obtain ⟨calls, hstep⟩ := hop.step_eq hresolve
  have hkept (token : Token) (h : s.Remembers expiries token) :
      (s.step c r).2.Remembers more token :=
    remembers_of_passes hissued (passes_step hissued c r) hclock
      (fun _ hlimit => List.mem_cons_of_mem _ hlimit) token h
  have hcache : (s.step c r).2.cache = _ := congrArg (fun x => x.2.cache) hstep
  obtain ⟨hnext, hbefore⟩ := hstands.served hc (congrArg QueryPage.last hfound) hcache
    List.mem_cons_self hkept
  refine ⟨_, congrArg Prod.fst hstep, congrArg QueryPage.rows hfound, ?_, ?_, ?_, hnext, hbefore⟩
  · rw [Paging.pageOf, hfound, Option.isSome_map]
    simp only
    split
    · rename_i hmore
      have hfirst : 0 < (k + 1) * n := Nat.mul_pos (Nat.succ_pos k) hpos
      exact iff_of_true (Paging.isSome_startAt hfirst (Nat.le_of_lt hmore)) hmore
    · rename_i hend
      exact iff_of_false Bool.false_ne_true hend
  · rw [Paging.pageOf, Option.isSome_map]
    exact hprevious
  · exact congrArg (fun x => x.2.table.rows) hstep

end Store

namespace Browses

variable {t : Tenant} {op : Operation} {answer : Table → Page Row → Except Error Answer}
  {size : Option Int} {rows : Rows} {links : List (Link × Nat)}

theorem leads_of_given (hop : Operation.Pages c t op q answer) {T : Table} {page : Page Row}
    {result : Except Error Answer} (hresult : result = answer T page) {more : List Int}
    (hnext : ∀ id ∈ page.next, (Link.next id).Leads q R n s more (k + 1))
    (hprevious : ∀ id ∈ page.previous, (Link.previous id).Leads q R n s more (k - 1))
    {link : Link} {m : Nat} (hgiven : (link, m) ∈ Link.givenOn k result) :
    link.Leads q R n s more m := by
  cases result with
  | error e => cases hgiven
  | ok a =>
    have hlinks : a.links = (page.next, page.previous) := hop.links_of_answer hresult.symm
    rw [Link.givenOn, hlinks] at hgiven
    rcases List.mem_append.1 hgiven with hgiven | hgiven
    · obtain ⟨id, hid, he⟩ := List.mem_map.1 hgiven
      obtain ⟨rfl, rfl⟩ := Prod.mk.inj he
      exact hnext id (Option.mem_toList.1 hid)
    · obtain ⟨id, hid, he⟩ := List.mem_map.1 hgiven
      obtain ⟨rfl, rfl⟩ := Prod.mk.inj he
      exact hprevious id (Option.mem_toList.1 hid)

theorem leads (hc : c.Valid) (hop : Operation.Pages c t op q answer)
    (hR : (q.ordered rows).map (·.2) = R) (hn : Paging.clampLimit c size = n)
    (h : Browses c t op size rows s links expiries) :
    s.HoldsIssued ∧ s.table.rows = rows ∧
      ∀ link k, (link, k) ∈ links → link.Leads q R n s expiries k := by
  induction h with
  | start hissued hrows =>
    refine ⟨hissued, hrows, fun link k hlink => ?_⟩
    obtain ⟨rfl, rfl⟩ := Prod.mk.inj (List.mem_singleton.1 hlink)
    exact .first
  | @follow s links expiries _ link k hlink clock hclock limit hlimit result s' hstep ih =>
    obtain ⟨hissued, hrows, hleads⟩ := ih
    have hpasses := Store.passes_step hissued c ⟨t, clock, op.withPage (link.request limit)⟩
    obtain ⟨page, hresult, -, -, -, hkeep, hnext, hprevious⟩ := Store.step_of_leads hc hop hissued
      (hrows ▸ hR) (fun hfirst => hlimit hfirst ▸ hn) (hn ▸ Paging.clampLimit_pos c size)
      (hleads link k hlink) hclock
    rw [hstep] at hpasses hresult hkeep hnext hprevious
    refine ⟨hpasses.held, hkeep.trans hrows, fun link' k' hlink' => ?_⟩
    rcases List.mem_append.1 hlink' with hgiven | hlink'
    · exact leads_of_given hop hresult hnext hprevious hgiven
    · refine (hleads link' k' hlink').of_kept ?_
      exact Store.remembers_of_passes hissued hpasses hclock fun _ => List.mem_cons_of_mem _
  | other _ r hclock hkeep ih =>
    obtain ⟨hissued, hrows, hleads⟩ := ih
    have hpasses := Store.passes_step hissued c r
    refine ⟨hpasses.held, hkeep.trans hrows, fun link k hlink => (hleads link k hlink).of_kept ?_⟩
    exact Store.remembers_of_passes hissued hpasses hclock fun _ hlimit => hlimit

/-- The page of a link with number `k` is computed from the rows at `k * n`, up to `n` of them. It has
a next page just when more rows follow, and one before it just when it is not the first. -/
theorem answer_of_link (hc : c.Valid) (hop : Operation.Pages c t op q answer)
    (h : Browses c t op size rows s links expiries) {link : Link} (hlink : (link, k) ∈ links)
    (clock : Clock) (hclock : ∀ limit ∈ expiries, clock.now < limit) (limit : Option Int)
    (hlimit : link = .first → limit = size) :
    ∃ page : Page Row,
      (s.step c ⟨t, clock, op.withPage (link.request limit)⟩).1 = answer s.table page ∧
      let R := (q.ordered rows).map (·.2)
      let n := Paging.clampLimit c size
      page.items = (R.drop (k * n)).take n ∧ (page.next.isSome ↔ (k + 1) * n < R.length) ∧
        (page.previous.isSome ↔ 0 < k) := by
  obtain ⟨hissued, hrows, hleads⟩ := h.leads hc hop rfl rfl
  obtain ⟨page, hresult, hitems, hnext, hprevious, -⟩ := Store.step_of_leads hc hop hissued
    (congrArg (fun rows => (q.ordered rows).map (·.2)) hrows)
    (fun hfirst => congrArg (Paging.clampLimit c) (hlimit hfirst)) (Paging.clampLimit_pos c size)
    (hleads link k hlink) hclock
  exact ⟨page, hresult, hitems, hnext, hprevious⟩

def threeOfDay : Store :=
  let save (id : String) : Request := ⟨.default, ⟨0⟩, .saveDocument
    { id, userId := "u", inserted := ⟨0, 0⟩, modified := ⟨0, 0⟩ }⟩
  (Store.run {} (Store.fresh "documents" 100 ⟨0⟩) [save "a", save "b", save "c"]).2

def ofDay (millis : Int64) (link : Link) (limit : Option Int) : Request :=
  ⟨.default, ⟨millis⟩, .listDocumentsByDate ⟨1970, 1, 1⟩ (link.request limit)⟩

def siteLooks : Request := ⟨.site "north", ⟨2⟩, .listFolder "" {}⟩

def afterFirst : Store := (threeOfDay.step {} (ofDay 1 .first (some 2))).2

def afterLook : Store := (afterFirst.step {} siteLooks).2

def afterSecond : Store := (afterLook.step {} (ofDay 3 (.next (.issued 1)) none)).2

theorem answer_of_link_back : ∃ links expiries,
    Browses {} .default (.listDocumentsByDate ⟨1970, 1, 1⟩ {}) (some 2) threeOfDay.table.rows
      afterSecond links expiries ∧
      (Link.previous (.issued 1), 0) ∈ links ∧ ∃ page : Page Row,
        (afterSecond.step {} (ofDay 4 (.previous (.issued 1)) none)).1 =
          .ok (.documentPage (Store.documentsOnly page)) ∧
        page.items.filterMap Row.documentId? = ["a", "b"] ∧ page.next.isSome ∧
        ¬page.previous.isSome := by
  have hissued : threeOfDay.HoldsIssued := fun e he => absurd he List.not_mem_nil
  have hgivenFirst : Link.givenOn 0 (threeOfDay.step {} (ofDay 1 .first (some 2))).1 =
      [(.next (.issued 1), 1)] := by
    decide +kernel
  have hgivenSecond : Link.givenOn 1 (afterLook.step {} (ofDay 3 (.next (.issued 1)) none)).1 =
      [(.previous (.issued 1), 0)] := by
    decide +kernel
  have hfirst : Browses {} .default (.listDocumentsByDate ⟨1970, 1, 1⟩ {}) (some 2)
      threeOfDay.table.rows afterFirst _ _ :=
    (Browses.start hissued rfl).follow List.mem_cons_self (by decide) (fun _ => rfl)
      (Prod.mk.eta (p := threeOfDay.step {} (ofDay 1 .first (some 2)))).symm
  rw [hgivenFirst] at hfirst
  have hother := hfirst.other siteLooks (by decide +kernel) (Store.rows_step_of_page {} _ rfl)
  have hsecond : Browses {} .default (.listDocumentsByDate ⟨1970, 1, 1⟩ {}) (some 2)
      threeOfDay.table.rows afterSecond _ _ :=
    hother.follow List.mem_cons_self (by decide +kernel) nofun
      (Prod.mk.eta (p := afterLook.step {} (ofDay 3 (.next (.issued 1)) none))).symm
  rw [hgivenSecond] at hsecond
  obtain ⟨page, hanswer, hitems, hnext, hprevious⟩ := answer_of_link (by decide)
    (.day ⟨1970, 1, 1⟩ {}) hsecond List.mem_cons_self ⟨4⟩ (by decide +kernel) none nofun
  refine ⟨_, _, hsecond, List.mem_cons_self, page, hanswer, ?_, hnext.2 (by decide +kernel),
    by simp [hprevious]⟩
  rw [hitems]
  decide +kernel

end Browses

end Cabinet
