import Mathlib.Data.List.Chain
import Cabinet.Proofs.Distinct
import Cabinet.Proofs.Store.Finding
import Cabinet.Proofs.Store.Navigation

/-! Following a listing page by page while its rows stay the same. Main statement: the pages cut the
rows of the query into pieces of one size, and after enough requests the last of them is reached. -/

namespace Cabinet

/-- Pages that hold the rows piece by piece, `n` rows to a page. As long as rows follow a page has a
next one, which need not have been asked for yet. -/
inductive Paging.Cuts (n : Nat) : List Row → List (Page Row) → Prop
  | stopped {rows : List Row} : Cuts n rows []
  | last {rows : List Row} {page : Page Row} (hitems : page.items = rows) (hend : rows.length ≤ n)
    (hnext : page.next = none) : Cuts n rows [page]
  | more {rows : List Row} {page : Page Row} {pages : List (Page Row)}
    (hitems : page.items = rows.take n) (hmore : n < rows.length) (hnext : page.next.isSome)
    (hrest : Cuts n (rows.drop n) pages) : Cuts n rows (page :: pages)

def Page.Ends {α : Type} (pages : List (Page α)) : Prop := ∃ last ∈ pages.getLast?, last.next = none

namespace Page

variable {α β : Type} {page : Page α} {pages : List (Page α)}

theorem ends_map {f : Page α → Page β} (hf : ∀ page, (f page).next = page.next) :
    Ends (pages.map f) ↔ Ends pages := by
  simp [Ends, List.getLast?_map, hf]

theorem ends_cons (hnext : page.next.isSome) : Ends (page :: pages) ↔ Ends pages := by
  cases pages with
  | nil => simp [Ends, Option.ne_none_iff_isSome.2 hnext]
  | cons second pages => simp [Ends, List.getLast?_cons_cons]

end Page

namespace Paging.Cuts

variable {n : Nat} {rows : List Row} {pages : List (Page Row)}

theorem items_subset (h : Cuts n rows pages) : pages.flatMap Page.items ⊆ rows := by
  induction h with
  | stopped => exact List.nil_subset _
  | last hitems => simp [hitems]
  | more hitems _ _ _ ih =>
    rw [List.flatMap_cons, hitems]
    exact List.append_subset.2 ⟨List.take_subset _ _, fun _ hrow => List.drop_subset _ _ (ih hrow)⟩

theorem items_eq (h : Cuts n rows pages) (hends : Page.Ends pages) :
    pages.flatMap Page.items = rows := by
  induction h with
  | stopped =>
    obtain ⟨last, hlast, -⟩ := hends
    cases hlast
  | last hitems => simp [hitems]
  | more hitems _ hnext _ ih =>
    rw [List.flatMap_cons, hitems, ih ((Page.ends_cons hnext).1 hends), List.take_append_drop]

theorem length_le (h : Cuts n rows pages) (hn : 0 < n) (hends : ¬Page.Ends pages) :
    pages.length ≤ rows.length := by
  induction h with
  | stopped => exact Nat.zero_le _
  | last _ _ hnext => exact absurd ⟨_, rfl, hnext⟩ hends
  | more _ hmore hnext _ ih =>
    have hrest := ih fun h => hends ((Page.ends_cons hnext).2 h)
    rw [List.length_drop] at hrest
    rw [List.length_cons]
    omega

end Paging.Cuts

/-- Equal elements of a list stand in the same one of its pieces of `n`. -/
def Paging.OnOnePage {α : Type} (n : Nat) (as : List α) : Prop :=
  ∀ i, ∀ hi : i < as.length, ∀ j, ∀ hj : j < as.length, as[i] = as[j] → i / n = j / n

instance {α : Type} [DecidableEq α] (n : Nat) (as : List α) : Decidable (Paging.OnOnePage n as) :=
  inferInstanceAs (Decidable (∀ i, ∀ hi : i < as.length, ∀ j, ∀ hj : j < as.length,
    as[i] = as[j] → i / n = j / n))

namespace Paging

variable {α : Type} {n : Nat} {as bs : List α}

theorem onOnePage_of_length_le (h : as.length ≤ n) : OnOnePage n as := fun i hi j hj _ => by
  rw [Nat.div_eq_of_lt (by omega), Nat.div_eq_of_lt (by omega)]

theorem onOnePage_of_nodup (h : as.Nodup) : OnOnePage n as := fun i hi j hj he => by
  rw [(List.Nodup.getElem_inj_iff h).1 he]

theorem onOnePage_append (hn : 0 < n) (ha : as.length = n) :
    OnOnePage n (as ++ bs) ↔ OnOnePage n bs ∧ as.Disjoint bs := by
  have hlater (j : Nat) : (n + j) / n = j / n + 1 := by
    rw [Nat.add_div_left _ hn]
  have hat (j : Nat) (hj : j < bs.length) :
      ∃ hj' : n + j < (as ++ bs).length, (as ++ bs)[n + j] = bs[j] := by
    subst ha
    exact ⟨by rw [List.length_append]; omega, by simp⟩
  constructor
  · intro h
    refine ⟨fun i hi j hj he => ?_, fun a hfront hback => ?_⟩
    · obtain ⟨hi', hei⟩ := hat i hi
      obtain ⟨hj', hej⟩ := hat j hj
      have hsame := h _ hi' _ hj' (hei.trans (he.trans hej.symm))
      rw [hlater, hlater] at hsame
      exact Nat.succ_inj.1 hsame
    · obtain ⟨i, hi, rfl⟩ := List.mem_iff_getElem.1 hfront
      obtain ⟨j, hj, hej⟩ := List.mem_iff_getElem.1 hback
      obtain ⟨hj', hej'⟩ := hat j hj
      have hi' : i < (as ++ bs).length := by
        rw [List.length_append]
        exact Nat.lt_add_right _ hi
      have hsame := h i hi' _ hj' ((List.getElem_append_left hi).trans (hej.symm.trans hej'.symm))
      rw [hlater, Nat.div_eq_of_lt (ha ▸ hi)] at hsame
      exact Nat.zero_ne_add_one _ hsame
  · rintro ⟨hback, hdisjoint⟩ i hi j hj he
    rw [List.length_append] at hi hj
    rw [List.getElem_append, List.getElem_append] at he
    split at he <;> split at he
    · rename_i hi' hj'
      rw [Nat.div_eq_of_lt (ha ▸ hi'), Nat.div_eq_of_lt (ha ▸ hj')]
    · rename_i hi' hj'
      exact absurd (he ▸ List.getElem_mem _) (hdisjoint (List.getElem_mem hi'))
    · rename_i hi' hj'
      exact absurd (he.symm ▸ List.getElem_mem _) (hdisjoint (List.getElem_mem hj'))
    · rename_i hi' hj'
      have hsame := hback _ _ _ _ he
      rw [ha] at hsame
      have e := hlater (i - n)
      have e' := hlater (j - n)
      rw [Nat.add_sub_cancel' (by omega)] at e e'
      omega

/-- Pages that are thinned out one by one hold no element twice exactly when equal ones are on one
page. -/
theorem Cuts.nodup_iff [DecidableEq α] {rows : List Row} {pages : List (Page Row)}
    (h : Cuts n rows pages) (hn : 0 < n) (hends : Page.Ends pages) {f : Row → Option α}
    (hf : ∀ row ∈ rows, (f row).isSome) :
    (pages.flatMap fun page => firsts (page.items.filterMap f)).Nodup ↔
      OnOnePage n (rows.filterMap f) := by
  have hlength {rows : List Row} (hf : ∀ row ∈ rows, (f row).isSome) :
      (rows.filterMap f).length = rows.length := List.filterMap_length_eq_length.2 hf
  induction h with
  | stopped =>
    obtain ⟨last, hlast, -⟩ := hends
    cases hlast
  | last hitems hend =>
    rw [List.flatMap_singleton, hitems]
    exact iff_of_true (nodup_firsts _) (onOnePage_of_length_le (by rwa [hlength hf]))
  | @more rows page pages hitems hmore hnext hrest ih =>
    have hfront : ((rows.take n).filterMap f).length = n := by
      rw [hlength fun row hrow => hf row (List.take_subset _ _ hrow), List.length_take]
      omega
    have hback := ih ((Page.ends_cons hnext).1 hends)
      (fun row hrow => hf row (List.drop_subset _ _ hrow))
    have hmem (a : α) : a ∈ (pages.flatMap fun page => firsts (page.items.filterMap f)) ↔
        a ∈ (rows.drop n).filterMap f := by
      rw [← hrest.items_eq ((Page.ends_cons hnext).1 hends), List.filterMap_flatMap]
      simp only [List.mem_flatMap, mem_firsts]
    conv_rhs => rw [← List.take_append_drop n rows, List.filterMap_append]
    rw [onOnePage_append hn hfront, List.flatMap_cons, hitems, List.nodup_append',
      and_iff_right (nodup_firsts _)]
    refine and_congr hback ?_
    simp only [List.Disjoint, mem_firsts, hmem]

end Paging

/-- What happens up to a page: requests in between, and then the request for the page. -/
structure Turn where
  between : List Request
  clock : Clock

def Turn.IsBefore (turn : Turn) (limit : Int) : Prop :=
  (∀ r ∈ turn.between, r.clock.now < limit) ∧ turn.clock.now < limit

instance (turn : Turn) (limit : Int) : Decidable (turn.IsBefore limit) :=
  inferInstanceAs (Decidable (_ ∧ _))

/-- Pages of a query from a start on, each from the table as it is then and each behind the end of
the one before. -/
inductive Paging.Follow (q : Query) (n : Nat) : Option PageKey → List (Table × Page Row) → Prop
  | stopped {start : Option PageKey} : Follow q n start []
  | last {start : Option PageKey} {T : Table} {page : Page Row}
    (hitems : page.items = (T.query { q with limit := n, start }).rows)
    (hlast : (T.query { q with limit := n, start }).last = none) (hnext : page.next = none) :
    Follow q n start [(T, page)]
  | more {start : Option PageKey} {T : Table} {page : Page Row} {key : PageKey}
    {pages : List (Table × Page Row)}
    (hitems : page.items = (T.query { q with limit := n, start }).rows)
    (hlast : (T.query { q with limit := n, start }).last = some key) (hnext : page.next.isSome)
    (hrest : Follow q n (some key) pages) : Follow q n start ((T, page) :: pages)

/-- While the rows stay the same, pages that follow each other cut them. -/
theorem Paging.Follow.cuts {q : Query} {n m : Nat} {rows : Rows} {start : Option PageKey}
    {pages : List (Table × Page Row)} (h : Follow q n start pages) (hq : q.start = none)
    (hn : 0 < n) (hrows : ∀ x ∈ pages, x.1.rows = rows)
    (hm : m ≤ ((q.ordered rows).map (·.2)).length)
    (hstart : start = startAt q ((q.ordered rows).map (·.2)) m) :
    Cuts n (((q.ordered rows).map (·.2)).drop m) (pages.map (·.2)) := by
  generalize hR : (q.ordered rows).map (·.2) = R at hm hstart ⊢
  induction h generalizing m with
  | stopped => exact .stopped
  | @last start T page hitems hlast hnext =>
    have hT : (q.ordered T.rows).map (·.2) = R := by rw [hrows _ List.mem_cons_self, hR]
    rw [hstart, query_startAt hq hT hm hn] at hitems hlast
    have hend : ¬m + n < R.length := fun hmore => by
      simp only [if_pos hmore] at hlast
      have hsome := isSome_startAt (q := q) (by omega) (Nat.le_of_lt hmore)
      rw [hlast] at hsome
      cases hsome
    have hlength : (R.drop m).length ≤ n := by
      rw [List.length_drop]
      omega
    exact .last (hitems.trans (List.take_of_length_le hlength)) hlength hnext
  | @more start T page key pages hitems hlast hnext _ ih =>
    have hT : (q.ordered T.rows).map (·.2) = R := by rw [hrows _ List.mem_cons_self, hR]
    rw [hstart, query_startAt hq hT hm hn] at hitems hlast
    have hmore : m + n < R.length := by
      by_contra hend
      simp only [if_neg hend] at hlast
      cases hlast
    simp only [if_pos hmore] at hlast
    have hrest := ih (fun x hx => hrows x (List.mem_cons_of_mem _ hx)) (Nat.le_of_lt hmore)
      hlast.symm
    rw [← List.drop_drop] at hrest
    have hlength : n < (R.drop m).length := by
      rw [List.length_drop]
      omega
    exact .more hitems hlength hnext hrest

namespace Store

def following? : Except Error Answer → Option TokenId
  | .ok answer => answer.links.1
  | .error _ => none

/-- Asks for the pages of a listing from one on, as long as there is a next one, and tells for each
page the table it is taken from and the answer. -/
def pageThrough (c : Config) (t : Tenant) (op : Operation) : Store → PageRequest → List Turn →
    List (Table × Except Error Answer)
  | _, _, [] => []
  | s, request, turn :: rest =>
    let s := (run c s turn.between).2
    let (result, s') := s.step c ⟨t, turn.clock, op.withPage request⟩
    (s.table, result) ::
      match following? result with
      | some id => pageThrough c t op s' { next := some id } rest
      | none => []

/-- Each turn is over before the token expires that was issued in the one before. -/
def Timely (c : Config) (turns : List Turn) : Prop :=
  turns.IsChain fun a b => b.IsBefore (Clock.after a.clock.now c.tokenLife)

instance (c : Config) (turns : List Turn) : Decidable (Timely c turns) :=
  inferInstanceAs (Decidable (turns.IsChain _))

def Steady (rows : Rows) (answers : List (Table × Except Error Answer)) : Prop :=
  ∀ x ∈ answers, x.1.rows = rows

instance (rows : Rows) (answers : List (Table × Except Error Answer)) :
    Decidable (Steady rows answers) :=
  inferInstanceAs (Decidable (∀ x ∈ answers, x.1.rows = rows))

theorem steady_nil {rows : Rows} : Steady rows [] := List.forall_mem_nil _

theorem steady_cons {rows : Rows} {x : Table × Except Error Answer}
    {answers : List (Table × Except Error Answer)} :
    Steady rows (x :: answers) ↔ x.1.rows = rows ∧ Steady rows answers :=
  List.forall_mem_cons

variable {c : Config} {t : Tenant} {op : Operation} {q : Query}
  {answer : Table → Page Row → Except Error Answer} {n : Nat} {s : Store}
  {limit : Int} {request : PageRequest} {start : Option PageKey} {turns : List Turn}

theorem pageThrough_cons (c : Config) (t : Tenant) (op : Operation) (s : Store)
    (request : PageRequest) (turn : Turn) (rest : List Turn) :
    pageThrough c t op s request (turn :: rest) =
      let s := (run c s turn.between).2
      let r : Request := ⟨t, turn.clock, op.withPage request⟩
      (s.table, (s.step c r).1) ::
        match following? (s.step c r).1 with
        | some id => pageThrough c t op (s.step c r).2 { next := some id } rest
        | none => [] := rfl

theorem forall_mem_pageThrough {P : Table → Prop}
    (hbetween : ∀ turn ∈ turns, ∀ s : Store, P s.table → P (run c s turn.between).2.table)
    (hstep : ∀ (s : Store) clock request, P s.table →
      P (s.step c ⟨t, clock, op.withPage request⟩).2.table) (h : P s.table) :
    ∀ x ∈ pageThrough c t op s request turns, P x.1 := by
  induction turns generalizing s request with
  | nil => exact List.forall_mem_nil _
  | cons turn rest ih =>
    obtain ⟨hfirst, hrest⟩ := List.forall_mem_cons.1 hbetween
    have hs := hfirst s h
    rw [pageThrough_cons]
    refine List.forall_mem_cons.2 ⟨hs, ?_⟩
    cases following? ((run c s turn.between).2.step c ⟨t, turn.clock, op.withPage request⟩).1 with
    | none => exact List.forall_mem_nil _
    | some id => exact ih hrest (hstep _ turn.clock request hs)

theorem settings_pageThrough (c : Config) (t : Tenant) (op : Operation) (s : Store)
    (request : PageRequest) (turns : List Turn) :
    ∀ x ∈ pageThrough c t op s request turns, x.1.settings = s.table.settings :=
  forall_mem_pageThrough (P := fun T => T.settings = s.table.settings)
    (fun turn _ s h => (settings_run c s turn.between).trans h)
    (fun s clock request h => (settings_run c s [⟨t, clock, op.withPage request⟩]).trans h) rfl

theorem holds_run {id : TokenId} {stored : Stored} {requests : List Request}
    (hissued : s.HoldsIssued) (hclock : ∀ r ∈ requests, r.clock.now < limit)
    (h : s.cache.Holds id stored limit) : (run c s requests).2.cache.Holds id stored limit := by
  induction requests generalizing s with
  | nil => exact h
  | cons r rest ih =>
    have hpasses := passes_step hissued c r
    have hholds : (s.step c r).2.cache.Holds id stored limit :=
      Passes.holds (s := { s with clock := r.clock }) hpasses hissued
        (hclock r List.mem_cons_self) h
    exact ih hpasses.held (fun r' hr' => hclock r' (List.mem_cons_of_mem r hr')) hholds

theorem holdsIssued_run {requests : List Request} (h : s.HoldsIssued) :
    (run c s requests).2.HoldsIssued := by
  induction requests generalizing s with
  | nil => exact h
  | cons r rest ih => exact ih (passes_step h c r).held

theorem holdsIssued_fresh (name : String) (maxBatchSize : Nat) (clock : Clock) :
    (fresh name maxBatchSize clock).HoldsIssued := nofun

/-- A request for the page of `n` rows that begins behind `start`: the first one, or one whose token
is kept until an instant. -/
inductive Asks (c : Config) (n : Nat) (s : Store) (limit : Int) :
    PageRequest → Option PageKey → Prop
  | first {size : Option Int} (hn : Paging.clampLimit c size = n) :
    Asks c n s limit { limit := size } none
  | next {id : TokenId} {token : Token} (h : s.cache.Holds id (.token token) limit)
    (hn : token.limit = n) : Asks c n s limit { next := some id } token.start

theorem Asks.run {requests : List Request} (hissued : s.HoldsIssued)
    (hclock : ∀ r ∈ requests, r.clock.now < limit) (h : Asks c n s limit request start) :
    Asks c n (run c s requests).2 limit request start := by
  cases h with
  | first hn => exact .first hn
  | next h hn => exact .next (holds_run hissued hclock h) hn

theorem step_of_asks (hop : Operation.Pages c t op q answer) (h : Asks c n s limit request start)
    {clock : Clock} (hclock : clock.now < limit) :
    let r : Request := ⟨t, clock, op.withPage request⟩
    let found := s.table.query { q with limit := n, start }
    ∃ page : Page Row, (s.step c r).1 = answer s.table page ∧ page.items = found.rows ∧
      (page.next = none → found.last = none) ∧
      ∀ id ∈ page.next, ∃ key, found.last = some key ∧
        Asks c n (s.step c r).2 (Clock.after clock.now c.tokenLife) { next := some id }
          (some key) := by
  intro r found
  obtain ⟨cursor, issued, hresolve, rfl, rfl⟩ : ∃ cursor issued,
      (Paging.resolve c request).run { s with clock } = (.ok cursor, { s with clock, issued }) ∧
        cursor.token.limit = n ∧ cursor.token.start = start := by
    cases h with
    | @first size hn => exact ⟨_, _, Paging.run_resolve_first c size _, hn, rfl⟩
    | next h hn =>
      exact ⟨_, _, Paging.run_resolve_next (s := { s with clock }) h hclock none, hn, rfl⟩
  obtain ⟨calls, hstep⟩ := hop.step_eq hresolve
  refine ⟨_, congrArg Prod.fst hstep, rfl, Option.map_eq_none_iff.1, fun id hid => ?_⟩
  obtain ⟨key, hkey, rfl⟩ := Option.map_eq_some_iff.1 hid
  have hcache : (s.step c r).2.cache = _ := congrArg (fun x => x.2.cache) hstep
  rw [hkey] at hcache
  have hholds : (s.step c r).2.cache.Holds (.issued issued)
      (.token (cursor.token.next (.issued issued) key)) (Clock.after clock.now c.tokenLife) := by
    rw [hcache]
    exact Paging.holds_next key
  exact ⟨key, hkey, .next hholds rfl⟩

/-- From page to page the answers follow each other, until there is no next page or no more are asked
for. -/
theorem pageThrough_from (hop : Operation.Pages c t op q answer) (hissued : s.HoldsIssued)
    (hasks : Asks c n s limit request start)
    (hanswer : ∀ x ∈ pageThrough c t op s request turns, ∀ page, ∃ a, answer x.1 page = .ok a)
    (hfirst : ∀ turn ∈ turns.head?, turn.IsBefore limit) (htime : Timely c turns) :
    ∃ pages : List (Table × Page Row),
      pageThrough c t op s request turns = pages.map (fun x => (x.1, answer x.1 x.2)) ∧
      Paging.Follow q n start pages ∧
      (pages.length = turns.length ∨ Page.Ends (pages.map (·.2))) := by
  induction turns generalizing s request limit start with
  | nil => exact ⟨[], rfl, .stopped, .inl rfl⟩
  | cons turn rest ih =>
    obtain ⟨hbetween, hnow⟩ := hfirst turn rfl
    obtain ⟨hsecond, htime⟩ := List.isChain_cons.1 htime
    have hissued₁ : (run c s turn.between).2.HoldsIssued := holdsIssued_run hissued
    obtain ⟨page, hresult, hitems, hend, hnext⟩ :=
      step_of_asks hop (hasks.run hissued hbetween) hnow
    rw [pageThrough_cons] at hanswer ⊢
    simp only [hresult] at hanswer ⊢
    obtain ⟨a, ha⟩ := hanswer _ List.mem_cons_self page
    have hfollowing : following? (answer (run c s turn.between).2.table page) = page.next := by
      simp only at ha
      rw [ha, following?, hop.links_of_answer ha]
    rw [hfollowing] at hanswer ⊢
    cases hfollows : page.next with
    | none =>
      exact ⟨[(_, page)], rfl, .last hitems (hend hfollows) hfollows, .inr ⟨page, rfl, hfollows⟩⟩
    | some id =>
      rw [hfollows] at hanswer
      have hsome : page.next.isSome := hfollows ▸ rfl
      obtain ⟨key, hlast, hasks'⟩ := hnext id hfollows
      have hpasses := passes_step hissued₁ c ⟨t, turn.clock, op.withPage request⟩
      obtain ⟨pages, hpages, hfollow, hdone⟩ := ih hpasses.held hasks'
        (fun x hx => hanswer x (List.mem_cons_of_mem _ hx)) hsecond htime
      refine ⟨(_, page) :: pages, ?_, .more hitems hlast hsome hfollow,
        hdone.imp (fun he => ?_) (Page.ends_cons hsome).2⟩
      · simp only [hpages, List.map_cons]
      · rw [List.length_cons, he, List.length_cons]

theorem isBefore_latest (turn : Turn) : turn.IsBefore Clock.latest :=
  ⟨fun r _ => r.clock.now_lt_latest, turn.clock.now_lt_latest⟩

/-- Whatever else happens in between, as long as the rows are the same at each page, the pages of a
listing cut them, and the last one is reached with more requests than there are rows in the table. -/
theorem pageThrough_eq (hop : Operation.Pages c t op q answer)
    (hanswer : ∀ T page, T.rows = s.table.rows → T.settings = s.table.settings →
      ∃ a, answer T page = .ok a) (hissued : s.HoldsIssued) {size : Option Int} {turns : List Turn}
    (hsteady : Steady s.table.rows (pageThrough c t op s { limit := size } turns))
    (htime : Timely c turns) :
    ∃ pages : List (Table × Page Row),
      pageThrough c t op s { limit := size } turns =
        pages.map (fun x => (x.1, answer x.1 x.2)) ∧
      (∀ x ∈ pages, x.1.rows = s.table.rows ∧ x.1.settings = s.table.settings) ∧
      Paging.Cuts (Paging.clampLimit c size) ((q.ordered s.table.rows).map (·.2))
        (pages.map (·.2)) ∧
      (s.table.rows.size < turns.length → Page.Ends (pages.map (·.2))) := by
  have hsettings := settings_pageThrough c t op s { limit := size } turns
  obtain ⟨pages, hpages, hfollow, hdone⟩ := pageThrough_from hop hissued
    (.first rfl) (fun x hx page => hanswer x.1 page (hsteady x hx) (hsettings x hx))
    (fun turn _ => isBefore_latest turn) htime
  have hsame : ∀ x ∈ pages, x.1.rows = s.table.rows ∧ x.1.settings = s.table.settings := by
    intro x hx
    have hmem := List.mem_map_of_mem (f := fun x => (x.1, answer x.1 x.2)) hx
    rw [← hpages] at hmem
    exact ⟨hsteady _ hmem, hsettings _ hmem⟩
  have hpos := Paging.clampLimit_pos c size
  have hcuts := hfollow.cuts hop.start_eq_none hpos (fun x hx => (hsame x hx).1) (Nat.zero_le _)
    rfl
  refine ⟨pages, hpages, hsame, hcuts, fun hturns => ?_⟩
  by_contra hends
  have hlength := hcuts.length_le hpos hends
  rw [List.length_map, hdone.resolve_right hends, List.length_drop, List.length_map] at hlength
  have := q.length_ordered_le s.table.rows
  omega

theorem run_nil (c : Config) (s : Store) : run c s [] = ([], s) := rfl

theorem steady_of_quiet (hop : Operation.Pages c t op q answer)
    (hquiet : ∀ turn ∈ turns, turn.between = []) :
    Steady s.table.rows (pageThrough c t op s request turns) := by
  induction turns generalizing s request with
  | nil => exact steady_nil
  | cons turn rest ih =>
    obtain ⟨hfirst, hrest⟩ := List.forall_mem_cons.1 hquiet
    have hrows : (s.step c ⟨t, turn.clock, op.withPage request⟩).2.table.rows = s.table.rows :=
      rows_step_of_page c s (by cases hop <;> rfl)
    have hlater (id : TokenId) : Steady (s.step c ⟨t, turn.clock, op.withPage request⟩).2.table.rows
        (pageThrough c t op (s.step c ⟨t, turn.clock, op.withPage request⟩).2 { next := some id }
          rest) := ih hrest
    rw [hrows] at hlater
    rw [pageThrough_cons, hfirst]
    simp only [run_nil]
    refine steady_cons.2 ⟨rfl, ?_⟩
    cases following? (s.step c ⟨t, turn.clock, op.withPage request⟩).1 with
    | none => exact steady_nil
    | some id => exact hlater id

theorem timely_replicate (hc : c.Valid) (n : Nat) (clock : Clock) :
    Timely c (List.replicate n ⟨[], clock⟩) :=
  List.isChain_replicate_of_rel n
    ⟨List.forall_mem_nil _, clock.now_lt_after hc.tokenLife_pos⟩

theorem exists_turns (hc : c.Valid) (hop : Operation.Pages c t op q answer) (s : Store)
    (request : PageRequest) : ∃ turns, Steady s.table.rows (pageThrough c t op s request turns) ∧
      Timely c turns ∧ s.table.rows.size < turns.length := by
  refine ⟨List.replicate (s.table.rows.size + 1) ⟨[], ⟨0⟩⟩, steady_of_quiet hop fun turn hturn => ?_,
    timely_replicate hc _ ⟨0⟩, ?_⟩
  · rw [List.eq_of_mem_replicate hturn]
  · rw [List.length_replicate]
    exact Nat.lt_succ_self _

/-- Followed to its last page while the table stays the same, a search lists these documents. -/
def Lists (c : Config) (t : Tenant) (criteria : Criteria) (s : Store) (documents : List Document) :
    Prop :=
  ∃ (size : Option Int) (turns : List Turn) (pages : List (Page Document)),
    let answers := pageThrough c t (.search criteria {}) s { limit := size } turns
    Steady s.table.rows answers ∧ Timely c turns ∧
      answers.map (·.2) = pages.map (fun page => .ok (.documentPage page)) ∧ Page.Ends pages ∧
      pages.flatMap Page.items = documents

theorem lists_of_page {criteria : Criteria} {size : Option Int} {clock : Clock}
    {page : Page Document}
    (h : (s.step c ⟨t, clock, .search criteria { limit := size }⟩).1 = .ok (.documentPage page))
    (hnext : page.next = none) : Lists c t criteria s page.items := by
  have hanswers : pageThrough c t (.search criteria {}) s { limit := size } [⟨[], clock⟩] =
      [(s.table, .ok (.documentPage page))] := by
    rw [pageThrough_cons]
    simp only [run_nil, Operation.withPage, h]
    rw [show following? (.ok (.documentPage page)) = none from hnext]
  refine ⟨size, [⟨[], clock⟩], [page], ?_, .singleton _, ?_, ⟨page, rfl, hnext⟩,
    List.flatMap_singleton _ _⟩
  · rw [hanswers]
    exact steady_cons.2 ⟨rfl, steady_nil⟩
  · rw [hanswers]
    rfl

def idsOf : Except Error Answer → List String
  | .ok (.documentPage page) => page.items.map Document.id
  | _ => []

section

variable {answers : List (Table × Except Error Answer)} {pages pages' : List (Page Document)}

theorem eq_of_answers (h : answers.map (·.2) = pages.map fun page => .ok (.documentPage page))
    (h' : answers.map (·.2) = pages'.map fun page => .ok (.documentPage page)) : pages = pages' := by
  have hinjective : Function.Injective fun page : Page Document =>
      (Except.ok (Answer.documentPage page) : Except Error Answer) :=
    fun _ _ he => Answer.documentPage.inj (Except.ok.inj he)
  exact hinjective.list_map (h.symm.trans h')

theorem ends_iff_of_answers
    (h : answers.map (·.2) = pages.map fun page => .ok (.documentPage page)) :
    Page.Ends pages ↔ answers.getLast?.map (fun x => following? x.2) = some none := by
  have hlast : answers.getLast?.map (fun x => following? x.2) = pages.getLast?.map (·.next) := by
    have hfollowing := congrArg (fun answers => answers.getLast?.map following?) h
    simp only [List.getLast?_map, Option.map_map] at hfollowing
    exact hfollowing
  rw [hlast]
  simp [Page.Ends]

theorem ids_of_answers (h : answers.map (·.2) = pages.map fun page => .ok (.documentPage page)) :
    pages.map (fun page => page.items.map Document.id) = answers.map fun x => idsOf x.2 := by
  have hids := congrArg (List.map idsOf) h
  simp only [List.map_map] at hids
  exact hids.symm

end

def ofSecond (id : String) (second : Int) : Document where
  id
  userId := "u"
  inserted := ⟨second, 0⟩
  modified := ⟨second, 0⟩

def saves (documents : List Document) : List Request :=
  documents.map fun d => ⟨.default, ⟨0⟩, .saveDocument d⟩

end Store

end Cabinet
