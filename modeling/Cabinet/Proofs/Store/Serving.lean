import Cabinet.Proofs.Store.Passing

/-! Serving one page of a query. Main statements: the rows and links of the page for a cursor, the
tokens that the cache holds afterwards, and which part of the ordered rows a token stands for. -/

namespace Cabinet

namespace Clock

theorem now_lt_latest (clock : Clock) : clock.now < latest := by
  simp only [now]
  split
  · rename_i h
    -- the reading is a multiple of a million nanoseconds, the last instant is not
    simp only [latest, Instant.lastSecond] at *
    omega
  · decide

theorem now_lt_after (clock : Clock) {life : Nat} (h : 0 < life) :
    clock.now < after clock.now life := by
  have hlatest := clock.now_lt_latest
  simp only [after]
  omega

end Clock

theorem Config.Valid.tokenLife_pos {c : Config} (h : c.Valid) : 0 < c.tokenLife := by
  unfold Config.Valid Config.fault? at h
  by_contra hlife
  have hzero : c.tokenLife = 0 := by omega
  split_ifs at h

namespace Store

def keep (c : Config) (token : Token) (s : Store) : Store :=
  let expires := Clock.after s.clock.now c.tokenLife
  { s with cache := s.cache.write s.clock.now token.id (.token token) expires }

/-- What the cache holds of tokens that have been issued, a later store holds too. -/
theorem Passes.holds {s s' : Store} (h : s.Passes s.issued s') (hissued : s.HoldsIssued)
    {id : TokenId} {stored : Stored} {limit : Int} (hlimit : s.clock.now < limit)
    (hholds : s.cache.Holds id stored limit) : s'.cache.Holds id stored limit := by
  obtain ⟨e, he, rfl⟩ := hholds.mem
  obtain ⟨n, hn, hid⟩ := hissued e he
  rw [hid] at hholds ⊢
  exact h.kept n hn stored limit hlimit hholds

end Store

namespace Paging

variable {c : Config} {q : Query} {s : Store} {token : Token} {id : TokenId}

/-- The store after the page of a cursor has been served. -/
def served (c : Config) (cursor : Cursor) (last : Option PageKey) (s : Store) : Store :=
  let s := if cursor.stored then s else s.keep c { cursor.token with hasNext := last.isSome }
  match last with
  | none => s
  | some start =>
    Store.keep c (cursor.token.next (.issued s.issued) start) { s with issued := s.issued + 1 }

def pageOf (cursor : Cursor) (found : QueryPage) (s : Store) : Page Row where
  items := found.rows
  next := found.last.map fun _ => .issued s.issued
  previous := cursor.token.previous.map fun _ => cursor.token.id

def rowsAt (q : Query) (token : Token) (T : Table) : QueryPage :=
  T.query { q with limit := token.limit, start := token.start }

theorem run_query (c : Config) (q : Query) (request : PageRequest) (s : Store) :
    (query c q request).run s =
      match (resolve c request).run s with
      | (.error e, s') => (.error e, s')
      | (.ok cursor, s') =>
        let found := rowsAt q cursor.token s'.table
        (.ok (pageOf cursor found s'), served c cursor found.last s') := by
  unfold query
  rw [Action.run_bind]
  rcases (resolve c request).run s with ⟨e | cursor, s'⟩
  · rfl
  · simp only [Action.run_bind, Action.run_table, complete_eq, served, pageOf, rowsAt]
    generalize s'.table.query { q with limit := cursor.token.limit, start := cursor.token.start } =
      found
    obtain ⟨token, stored⟩ := cursor
    obtain ⟨rows, last⟩ := found
    cases stored <;> cases last <;> rfl

theorem clampLimit_pos (c : Config) (limit : Option Int) : 0 < clampLimit c limit := by
  unfold clampLimit
  split
  · split <;> omega
  · omega

theorem run_resolve_first (c : Config) (limit : Option Int) (s : Store) :
    (resolve c { limit }).run s =
      (.ok ⟨{ id := .issued s.issued, limit := clampLimit c limit }, false⟩,
        { s with issued := s.issued + 1 }) := rfl

theorem run_load_of_holds (field : String) {limit : Int}
    (h : s.cache.Holds id (.token token) limit) (hnow : s.clock.now < limit) :
    (load field id).run s = (.ok token, s) := by
  rw [run_load, h.read? hnow]
  rfl

theorem run_resolve_next {limit : Int} (h : s.cache.Holds id (.token token) limit)
    (hnow : s.clock.now < limit) (size : Option Int) :
    (resolve c { limit := size, next := some id }).run s = (.ok ⟨token, true⟩, s) := by
  simp only [resolve, Action.run_bind, run_load_of_holds "next" h hnow]
  rfl

theorem run_resolve_previous {current : Token} {limit limit' : Int}
    (h : s.cache.Holds current.id (.token current) limit) (hnow : s.clock.now < limit)
    (hprevious : current.previous = some id) (h' : s.cache.Holds id (.token token) limit')
    (hnow' : s.clock.now < limit') (size : Option Int) :
    (resolve c { limit := size, previous := some current.id }).run s = (.ok ⟨token, true⟩, s) := by
  simp only [resolve, Action.run_bind, run_load_of_holds "previous" h hnow, hprevious,
    run_load_of_holds "previous" h' hnow']
  rfl

variable {cursor : Cursor} {last : Option PageKey}

theorem table_served : (served c cursor last s).table = s.table := by
  unfold served
  cases cursor.stored <;> cases last <;> rfl

theorem holds_next (start : PageKey) :
    (served c cursor (some start) s).cache.Holds (.issued s.issued)
      (.token (cursor.token.next (.issued s.issued) start))
      (Clock.after s.clock.now c.tokenLife) := by
  unfold served
  cases cursor.stored <;> exact Cache.holds_write_self

theorem holds_current (hc : c.Valid) (hid : token.id ≠ .issued s.issued) :
    (served c ⟨token, false⟩ last s).cache.Holds token.id
      (.token { token with hasNext := last.isSome }) (Clock.after s.clock.now c.tokenLife) := by
  cases last with
  | none => exact Cache.holds_write_self
  | some start =>
    exact Cache.holds_write_self.write (s.clock.now_lt_after hc.tokenLife_pos) hid

theorem mem_of_mem_rowsAt {T : Table} {row : Row} (h : row ∈ (rowsAt q token T).rows) :
    row ∈ T ∧ (q.position? row).isSome := by
  rw [rowsAt, Table.query, Query.page_rows, List.mem_map] at h
  obtain ⟨x, hx, rfl⟩ := h
  obtain ⟨hmem, hposition⟩ := Query.mem_ordered.1 (List.mem_filter.1 hx).1
  exact ⟨Table.mem_toList.1 hmem, Option.isSome_iff_exists.2 ⟨_, hposition⟩⟩

theorem mem_of_run_query {request : PageRequest} {page : Page Row} {s' : Store}
    (h : (query c q request).run s = (.ok page, s')) {row : Row} (hrow : row ∈ page.items) :
    row ∈ s.table ∧ (q.position? row).isSome := by
  rw [run_query] at h
  obtain ⟨n, hn⟩ := Action.onlyReads_resolve c request s
  rcases hresolve : (resolve c request).run s with ⟨e | cursor, s''⟩
  · rw [hresolve] at h
    cases h
  · rw [hresolve] at h hn
    obtain ⟨hpage, -⟩ := Prod.mk.inj h
    rw [← Except.ok.inj hpage, hn] at hrow
    exact mem_of_mem_rowsAt hrow

/-- Where the page starts that is to skip the first `m` of some rows. -/
def startAt (q : Query) (rows : List Row) : Nat → Option PageKey
  | 0 => none
  | m + 1 => rows[m]?.map q.pageKey

theorem isSome_startAt {rows : List Row} {m : Nat} (hpos : 0 < m) (hm : m ≤ rows.length) :
    (startAt q rows m).isSome := by
  cases m with
  | zero => cases hpos
  | succ m => simp [startAt, List.getElem?_eq_getElem hm]

theorem remaining_startAt (hq : q.start = none) {rows : Rows} {m : Nat}
    (hm : m ≤ (q.ordered rows).length) :
    (Query.remaining { q with start := startAt q ((q.ordered rows).map (·.2)) m } rows) =
      (q.ordered rows).drop m := by
  cases m with
  | zero => exact Query.remaining_of_start_none rfl rows
  | succ m =>
    have hlt : m < (q.ordered rows).length := hm
    have hsplit : q.remaining rows = (q.ordered rows).take m ++ (q.ordered rows)[m] ::
        (q.ordered rows).drop (m + 1) := by
      rw [Query.remaining_of_start_none hq, ← List.drop_eq_getElem_cons hlt,
        List.take_append_drop]
    rw [startAt, List.getElem?_map, List.getElem?_eq_getElem hlt]
    exact Query.remaining_after hsplit

/-- A page that starts behind the first `m` rows has the rows that follow them. -/
theorem query_startAt (hq : q.start = none) {T : Table} {R : List Row}
    (hR : (q.ordered T.rows).map (·.2) = R) {m n : Nat} (hm : m ≤ R.length) (hn : 0 < n) :
    T.query { q with limit := n, start := startAt q R m } =
      { rows := (R.drop m).take n
        last := if m + n < R.length then startAt q R (m + n) else none } := by
  subst hR
  have hlength : m ≤ (q.ordered T.rows).length := by simpa using hm
  have hmax : max n 1 = n := by omega
  have hremaining : Query.remaining
      { q with limit := n, start := startAt q ((q.ordered T.rows).map (·.2)) m } T.rows =
      (q.ordered T.rows).drop m :=
    remaining_startAt hq hlength
  unfold Table.query Query.page
  simp only [hremaining, hmax, List.map_drop]
  congr 1
  simp only [List.length_drop, List.length_map] at *
  by_cases hmore : m + n < (q.ordered T.rows).length
  · rw [if_pos (by omega), if_pos hmore]
    obtain ⟨k, rfl⟩ : ∃ k, n = k + 1 := ⟨n - 1, by omega⟩
    rw [← Nat.add_assoc, startAt, List.getLast?_take, if_neg (by omega), Nat.add_sub_cancel,
      List.getElem?_drop, List.getElem?_eq_getElem (by simp; omega)]
    rfl
  · rw [if_neg (by omega), if_neg hmore]

end Paging

end Cabinet
