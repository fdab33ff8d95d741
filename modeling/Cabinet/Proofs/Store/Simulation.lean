import Cabinet.Proofs.Page.Caching
import Cabinet.Proofs.Store.Likeness
import Cabinet.Proofs.Store.Renaming

/-! Two stores that a tenant cannot tell apart but by the names of its page tokens. Main statement:
the same request, its tokens renamed, has the same answer, its tokens renamed, and leaves the stores
alike. -/

namespace Cabinet

open Equiv (Perm)
open NamesTokens (tokens rename)

def Store.HoldsIssued (s : Store) : Prop := ∀ e ∈ s.cache.entries, ∃ n < s.issued, e.1 = .issued n

theorem Store.HoldsIssued.read?_eq_none {s : Store} (h : s.HoldsIssued) {n : Nat}
    (hn : s.issued ≤ n) (time : Int) : s.cache.read? time (.issued n) = none := by
  refine Cache.read?_eq_none fun e he hkey => ?_
  obtain ⟨m, hm, hissued⟩ := h e he
  have hmn : m = n := TokenId.issued.inj (hissued.symm.trans hkey)
  omega

/-- What two caches hold of one token of the tenant. -/
inductive Renaming.Holds (w : Renaming) : Option Stored → Option Stored → Prop
  | none : Holds w none none
  | token {token token' : Token} (h : w.Relates token token') :
    Holds w (some (.token token)) (some (.token token'))

structure Store.Alike (t : Tenant) (w : Renaming) (s s' : Store) : Prop where
  table : s.table.Alike t s'.table
  clock : s.clock = s'.clock
  left : s.HoldsIssued
  right : s'.HoldsIssued
  bound : ∀ n, w.own n → n < s.issued ∧ w.perm n < s'.issued
  cache : ∀ n, w.own n → ∀ time, s.clock.now ≤ time →
    w.Holds (s.cache.read? time (.issued n)) (s'.cache.read? time (.issued (w.perm n)))

/-- Two outcomes that are the same failure, or two related values. -/
inductive SameOutcome {α : Type} (R : α → α → Prop) : Except Error α → Except Error α → Prop
  | ok {a a' : α} (h : R a a') : SameOutcome R (.ok a) (.ok a')
  | error (e : Error) : SameOutcome R (.error e) (.error e)

namespace Action

variable {t : Tenant} {w : Renaming} {α β : Type} {R : Renaming → α → α → Prop}
  {S : Renaming → β → β → Prop}

/-- From alike stores two actions have related outcomes and leave the stores alike. -/
def Matches (t : Tenant) (w : Renaming) (R : Renaming → α → α → Prop) (a a' : Action α) : Prop :=
  ∀ s s' : Store, s.Alike t w s' → ∃ w', w.Extends w' ∧
    Store.Alike t w' (a.run s).2 (a'.run s').2 ∧ SameOutcome (R w') (a.run s).1 (a'.run s').1

theorem matches_pure {a a' : α} (h : R w a a') : Matches t w R (pure a) (pure a') :=
  fun _ _ hs => ⟨w, .refl w, hs, .ok h⟩

theorem matches_throw (e : Error) : Matches t w R (throw e) (throw e) :=
  fun _ _ hs => ⟨w, .refl w, hs, .error e⟩

theorem Matches.bind {a a' : Action α} {f f' : α → Action β} (ha : Matches t w R a a')
    (hf : ∀ w', w.Extends w' → ∀ x x', R w' x x' → Matches t w' S (f x) (f' x')) :
    Matches t w S (a >>= f) (a' >>= f') := by
  intro s s' hs
  obtain ⟨w₁, hw₁, hs₁, houtcome⟩ := ha s s' hs
  rw [run_bind, run_bind]
  rcases hrun : a.run s with ⟨x, u⟩
  rcases hrun' : a'.run s' with ⟨x', u'⟩
  rw [hrun, hrun'] at hs₁ houtcome
  cases houtcome with
  | ok hx =>
    obtain ⟨w₂, hw₂, hs₂, houtcome⟩ := hf w₁ hw₁ _ _ hx u u' hs₁
    exact ⟨w₂, hw₁.trans hw₂, hs₂, houtcome⟩
  | error e => exact ⟨w₁, hw₁, hs₁, .error e⟩

theorem matches_table : Matches t w (fun _ => Table.Alike t) Action.table Action.table :=
  fun _ _ hs => ⟨w, .refl w, hs, .ok hs.table⟩

end Action

theorem Store.Alike.withTable {t : Tenant} {w : Renaming} {s s' : Store} (h : s.Alike t w s')
    {T T' : Table} (hT : T.Alike t T') :
    Store.Alike t w { s with table := T } { s' with table := T' } where
  table := hT
  clock := h.clock
  left := h.left
  right := h.right
  bound := h.bound
  cache := h.cache

namespace Action

variable {t : Tenant} {w : Renaming} {α : Type}

theorem matches_of_run {a : Action α} (outcome : Table → Except Error α) (next : Table → Table)
    (hrun : ∀ s : Store, a.run s = (outcome s.table, { s with table := next s.table }))
    (houtcome : ∀ T T' : Table, T.Alike t T' → outcome T = outcome T')
    (hnext : ∀ T T' : Table, T.Alike t T' → (next T).Alike t (next T')) :
    Matches t w (fun _ => Eq) a a := by
  intro s s' hs
  rw [hrun, hrun]
  refine ⟨w, .refl w, hs.withTable (hnext _ _ hs.table), ?_⟩
  rw [houtcome _ _ hs.table]
  cases outcome s'.table with
  | ok a => exact .ok rfl
  | error e => exact .error e

theorem matches_of_read {a : Action α} (value : Table → α)
    (hrun : ∀ s : Store, a.run s = (.ok (value s.table), s))
    (hvalue : ∀ T T' : Table, T.Alike t T' → value T = value T') :
    Matches t w (fun _ => Eq) a a :=
  matches_of_run (fun T => .ok (value T)) id hrun (fun T T' h => congrArg Except.ok (hvalue T T' h))
    fun _ _ h => h

theorem matches_of_fault {a : Action α} (fault : Table → Option Error) (value : Table → α)
    (next : Table → Table)
    (hrun : ∀ s : Store, a.run s = match fault s.table with
      | some e => (.error e, s)
      | none => (.ok (value s.table), { s with table := next s.table }))
    (hfault : ∀ T T' : Table, T.Alike t T' → fault T = fault T')
    (hvalue : ∀ T T' : Table, T.Alike t T' → value T = value T')
    (hnext : ∀ T T' : Table, T.Alike t T' → (next T).Alike t (next T')) :
    Matches t w (fun _ => Eq) a a := by
  let outcome (T : Table) : Except Error α :=
    match fault T with
    | some e => .error e
    | none => .ok (value T)
  refine matches_of_run outcome (fun T => if (fault T).isSome then T else next T) (fun s => ?_)
    (fun T T' h => ?_) fun T T' h => ?_
  · rw [hrun]
    simp only [outcome]
    cases fault s.table <;> rfl
  · simp only [outcome, hfault T T' h, hvalue T T' h]
  · simp only [hfault T T' h]
    split
    · exact h
    · exact hnext T T' h

end Action

namespace Renaming

def issue (w : Renaming) (n n' : Nat) : Renaming where
  own m := w.own m ∨ m = n
  perm := w.perm.trans (Equiv.swap (w.perm n) n')

variable {w : Renaming} {n n' : Nat}

theorem perm_issue_self (w : Renaming) (n n' : Nat) : (w.issue n n').perm n = n' :=
  Equiv.swap_apply_left _ _

theorem extends_issue (hn : ∀ m, w.own m → m < n ∧ w.perm m < n') : w.Extends (w.issue n n') := by
  intro m hm
  obtain ⟨hlt, hlt'⟩ := hn m hm
  refine ⟨.inl hm, Equiv.swap_apply_of_ne_of_ne (fun e => ?_) (by omega)⟩
  have hmn : m = n := w.perm.injective e
  omega

theorem Holds.mono {w' : Renaming} {x x' : Option Stored} (h : w.Holds x x')
    (hw : w.Extends w') : w'.Holds x x' := by
  cases h with
  | none => exact .none
  | token h => exact .token (h.mono hw)

end Renaming

namespace Paging

open Cabinet.Action

variable {t : Tenant} {w : Renaming}

theorem matches_issue : Matches t w Renaming.Relates issue issue := by
  intro s s' hs
  have hextends : w.Extends (w.issue s.issued s'.issued) := Renaming.extends_issue hs.bound
  have hself := w.perm_issue_self s.issued s'.issued
  -- the renaming grows by the two numbers that are issued here, whatever others have drawn
  refine ⟨w.issue s.issued s'.issued, hextends, ⟨hs.table, hs.clock, ?_, ?_, ?_, ?_⟩, .ok ⟨?_, ?_⟩⟩
  · intro e he
    obtain ⟨n, hn, hkey⟩ := hs.left e he
    exact ⟨n, Nat.lt_succ_of_lt hn, hkey⟩
  · intro e he
    obtain ⟨n, hn, hkey⟩ := hs.right e he
    exact ⟨n, Nat.lt_succ_of_lt hn, hkey⟩
  · rintro n (hn | rfl)
    · rw [(hextends n hn).2]
      obtain ⟨hlt, hlt'⟩ := hs.bound n hn
      exact ⟨Nat.lt_succ_of_lt hlt, Nat.lt_succ_of_lt hlt'⟩
    · rw [hself]
      exact ⟨Nat.lt_succ_self _, Nat.lt_succ_self _⟩
  · rintro n (hn | rfl) time htime
    · rw [(hextends n hn).2]
      exact (hs.cache n hn time htime).mono hextends
    · -- neither cache has an entry for a token that is issued just now
      rw [hself]
      show Renaming.Holds _ (s.cache.read? time (.issued s.issued))
        (s'.cache.read? time (.issued s'.issued))
      rw [hs.left.read?_eq_none (Nat.le_refl _), hs.right.read?_eq_none (Nat.le_refl _)]
      exact .none
  · intro id hid
    rw [List.mem_singleton.1 hid]
    exact ⟨s.issued, rfl, .inr rfl⟩
  · exact congrArg TokenId.issued hself.symm

def loaded (field : String) : Option Stored → Except Error Token
  | none => .error (.invalid [⟨field, "pagination token not found or expired"⟩])
  | some stored =>
    match stored.token? with
    | some token => .ok token
    | none => .error .unreadableToken

theorem run_load (field : String) (id : TokenId) (s : Store) :
    (load field id).run s = (loaded field (s.cache.read? s.clock.now id), s) := by
  unfold load loaded
  rw [run_bind, run_get]
  simp only
  cases s.cache.read? s.clock.now id with
  | none => rfl
  | some stored =>
    simp only
    cases stored.token? <;> rfl

theorem matches_load (field : String) {id id' : TokenId} (h : w.Relates id id') :
    Matches t w Renaming.Relates (load field id) (load field id') := by
  obtain ⟨hown, rfl⟩ := h
  obtain ⟨n, rfl, hn⟩ := hown id (List.mem_singleton_self id)
  intro s s' hs
  have hholds := hs.cache n hn s.clock.now (Int.le_refl _)
  refine ⟨w, .refl w, ?_⟩
  rw [run_load, run_load, ← hs.clock]
  refine ⟨hs, ?_⟩
  show SameOutcome _ (loaded field (s.cache.read? s.clock.now (.issued n)))
    (loaded field (s'.cache.read? s.clock.now (.issued (w.perm n))))
  generalize s.cache.read? s.clock.now (.issued n) = x at hholds
  generalize s'.cache.read? s.clock.now (.issued (w.perm n)) = x' at hholds
  cases hholds with
  | none => exact .error _
  | token htoken => exact .ok htoken

theorem matches_save (c : Config) {token token' : Token} (h : w.Relates token token') :
    Matches t w (fun _ => Eq) (save c token) (save c token') := by
  obtain ⟨n, hid, hn⟩ := h.1 token.id (List.mem_append_left _ (List.mem_singleton_self _))
  have hid' : token'.id = .issued (w.perm n) := by
    rw [h.2]
    show token.id.rename w.perm = _
    rw [hid]
    rfl
  intro s s' hs
  obtain ⟨hlt, hlt'⟩ := hs.bound n hn
  refine ⟨w, .refl w, ⟨hs.table, hs.clock, ?_, ?_, hs.bound, ?_⟩, .ok rfl⟩
  · intro e he
    rcases Cache.mem_write he with hkey | he
    · exact ⟨n, hlt, hkey.trans hid⟩
    · exact hs.left e he
  · intro e he
    rcases Cache.mem_write he with hkey | he
    · exact ⟨w.perm n, hlt', hkey.trans hid'⟩
    · exact hs.right e he
  · intro m hm time htime
    show w.Holds ((s.cache.write s.clock.now token.id (.token token) _).read? time (.issued m))
      ((s'.cache.write s'.clock.now token'.id (.token token') _).read? time (.issued (w.perm m)))
    rw [← hs.clock, hid, hid']
    by_cases hmn : m = n
    · -- the token that is written: both caches let it live equally long
      subst hmn
      rw [Cache.read?_write_self, Cache.read?_write_self]
      split
      · exact .token h
      · exact .none
    · have hne : TokenId.issued m ≠ .issued n := fun e => hmn (TokenId.issued.inj e)
      have hne' : TokenId.issued (w.perm m) ≠ .issued (w.perm n) := fun e =>
        hmn (w.perm.injective (TokenId.issued.inj e))
      have htime' : s.clock.now ≤ time := htime
      rw [Cache.read?_write_ne htime' hne, Cache.read?_write_ne htime' hne']
      exact hs.cache m hm time htime

theorem matches_firstPage (limit : Nat) :
    Matches t w Renaming.Relates (firstPage limit) (firstPage limit) := by
  refine matches_issue.bind fun w' _ id id' hid => matches_pure ⟨?_, ?_⟩
  · intro x hx
    exact hid.1 x (by simpa [tokens] using hx)
  · rw [hid.2]
    rfl

theorem matches_stored {token token' : Token} (h : w.Relates token token') :
    Matches t w Renaming.Relates (pure ⟨token, true⟩ : Action Cursor) (pure ⟨token', true⟩) :=
  matches_pure ⟨h.1, by rw [h.2]; rfl⟩

theorem matches_resolve (c : Config) {request request' : PageRequest}
    (h : w.Relates request request') :
    Matches t w Renaming.Relates (resolve c request) (resolve c request') := by
  obtain ⟨hown, rfl⟩ := h
  obtain ⟨limit, next, previous⟩ := request
  cases next with
  | none =>
    cases previous with
    | none => exact matches_firstPage _
    | some previous =>
      have hprevious : w.Relates previous (rename w.perm previous) :=
        ⟨fun id hid => hown id (by simpa [tokens] using hid), rfl⟩
      apply (matches_load "previous" hprevious).bind
      intro w' _ current current' hcurrent
      obtain ⟨hcurrentOwn, rfl⟩ := hcurrent
      -- the page before the current one is named by a token of the tenant too
      obtain ⟨id, limit, start, previous, hasNext⟩ := current
      cases previous with
      | none => exact matches_firstPage limit
      | some previous =>
        have hprevious : w'.Relates previous (rename w'.perm previous) :=
          ⟨fun id hid => hcurrentOwn id (List.mem_append_right _ (by simpa [tokens] using hid)), rfl⟩
        exact (matches_load "previous" hprevious).bind fun _ _ _ _ htoken => matches_stored htoken
  | some next =>
    cases previous with
    | none =>
      have hnext : w.Relates next (rename w.perm next) :=
        ⟨fun id hid => hown id (by simpa [tokens] using hid), rfl⟩
      exact (matches_load "next" hnext).bind fun _ _ _ _ htoken => matches_stored htoken
    | some previous => exact matches_throw _

def storeCurrent (c : Config) (cursor : Cursor) (last : Option PageKey) : Action Unit :=
  if cursor.stored then pure ()
  else save c { cursor.token with hasNext := last.isSome }

def storeNext (c : Config) (current : Token) : Option PageKey → Action (Option TokenId)
  | none => pure none
  | some start => do
    let id ← issue
    save c (current.next id start)
    return some id

theorem complete_eq (c : Config) (cursor : Cursor) (last : Option PageKey) :
    complete c cursor last = (do
      storeCurrent c cursor last
      let next ← storeNext c cursor.token last
      return (next, cursor.token.previous.map fun _ => cursor.token.id)) := by
  obtain ⟨token, stored⟩ := cursor
  cases stored <;> cases last <;> rfl

theorem matches_storeNext (c : Config) {token token' : Token} (h : w.Relates token token')
    (last : Option PageKey) :
    Matches t w Renaming.Relates (storeNext c token last) (storeNext c token' last) := by
  cases last with
  | none => exact matches_pure ⟨nofun, rfl⟩
  | some start =>
    apply matches_issue.bind
    intro w' hw id id' hid
    obtain ⟨hown, rfl⟩ := hid
    have htoken := h.mono hw
    have hnext : w'.Relates (token.next id start) (token'.next (rename w'.perm id) start) := by
      refine ⟨fun x hx => ?_, by rw [htoken.2]; rfl⟩
      rcases List.mem_append.1 hx with hx | hx
      · exact hown x hx
      · exact htoken.1 x (List.mem_append_left _ (by simpa [tokens, Token.next] using hx))
    refine (matches_save c hnext).bind fun w'' hw' _ _ _ => matches_pure ?_
    exact Renaming.Relates.mono (a := some id) ⟨fun x hx => hown x (by simpa [tokens] using hx), rfl⟩ hw'

theorem matches_complete (c : Config) {cursor cursor' : Cursor} (h : w.Relates cursor cursor')
    (last : Option PageKey) :
    Matches t w Renaming.Relates (complete c cursor last) (complete c cursor' last) := by
  rw [complete_eq, complete_eq]
  obtain ⟨hown, rfl⟩ := h
  obtain ⟨token, stored⟩ := cursor
  have htoken : w.Relates token (rename w.perm token) := ⟨hown, rfl⟩
  have hcurrent : Matches t w (fun _ => Eq) (storeCurrent c ⟨token, stored⟩ last)
      (storeCurrent c (rename w.perm ⟨token, stored⟩) last) := by
    cases stored with
    | true => exact matches_pure rfl
    | false => exact matches_save c ⟨hown, rfl⟩
  apply hcurrent.bind
  intro w₁ hw₁ _ _ _
  have htoken := htoken.mono hw₁
  refine (matches_storeNext c htoken last).bind fun w₂ hw₂ next next' hnext => matches_pure ?_
  have htoken := htoken.mono hw₂
  obtain ⟨hnextOwn, rfl⟩ := hnext
  refine ⟨fun id hid => ?_, ?_⟩
  · rcases List.mem_append.1 hid with hid | hid
    · exact hnextOwn id hid
    · refine htoken.1 id (List.mem_append_left _ ?_)
      cases hprevious : token.previous <;> simp_all [tokens]
  · show (rename w₂.perm next, (rename w.perm token).previous.map fun _ =>
      (rename w.perm token).id) = _
    rw [htoken.2]
    refine Prod.ext rfl ?_
    show (token.previous.map _).map _ = (token.previous.map _).map _
    rw [Option.map_map, Option.map_map]
    rfl

theorem matches_query (c : Config) {q : Query} (hq : Partition.IsOwn t q.partition)
    {request request' : PageRequest} (h : w.Relates request request') :
    Matches t w Renaming.Relates (query c q request) (query c q request') := by
  apply (matches_resolve c h).bind
  intro w₁ _ cursor cursor' hcursor
  apply matches_table.bind
  intro w₂ hw₂ T T' hT
  have hcursor := hcursor.mono hw₂
  have hlimit : cursor'.token.limit = cursor.token.limit := by rw [hcursor.2]; rfl
  have hstart : cursor'.token.start = cursor.token.start := by rw [hcursor.2]; rfl
  have hpage : T.query { q with limit := cursor.token.limit, start := cursor.token.start } =
      T'.query { q with limit := cursor.token.limit, start := cursor.token.start } := hT.query hq
  simp only [hlimit, hstart, hpage]
  refine (matches_complete c hcursor _).bind fun w₃ _ links links' hlinks => matches_pure ?_
  exact ⟨hlinks.1, by rw [hlinks.2]; rfl⟩

end Paging

end Cabinet
