import Cabinet.Proofs.Calendar.Order
import Cabinet.Proofs.Store.PagingThrough
import Cabinet.Proofs.Store.Soundness

/-! Listing the documents of a day, page after page, while they come and go. Main statement: a walk
through the pages meets them in order of insertion, and each document that is there at every page
exactly once. -/

namespace Cabinet

def Position.ofDay (t : Tenant) (inserted : Instant) (id : String) : Position :=
  ⟨inserted.millisecondText ++ delimiter ++ id, ⟨Partition.document t id, SortKey.document⟩⟩

def Query.ofDay (t : Tenant) (day : Day) (limit : Nat) (start : Option PageKey) : Query where
  index := .first
  partition := Partition.day t day.text
  limit
  start

def Position.IsPast (start : Option PageKey) (p : Position) : Prop :=
  ∀ key ∈ start, key.position < p

instance (start : Option PageKey) (p : Position) : Decidable (p.IsPast start) :=
  inferInstanceAs (Decidable (∀ key ∈ start, key.position < p))

@[simp] theorem Query.before_ofDay (t : Tenant) (day : Day) (limit : Nat) (start : Option PageKey)
    (a b : Position) : (Query.ofDay t day limit start).before a b = decide (a < b) := rfl

theorem Row.IsLive.eq_ofDay {t : Tenant} {row : Row} (h : row.IsLive t) {day s : String}
    (hfirst : row.key.first = some ⟨Partition.day t day, s⟩) :
    ∃ d : Document, d.tenant = t ∧ d.insertedDay = day ∧ row = d.liveRow := by
  cases h with
  | document d h =>
    subst h
    have hday := Partition.day_injective (Address.mk.inj (Option.some.inj hfirst)).1
    exact ⟨d, rfl, hday, rfl⟩
  | version d h => cases hfirst
  | tag tag h =>
    obtain ⟨tail, first, value, rfl, hvalue⟩ := Tag.mem_rows h
    obtain ⟨value, hvalue⟩ := hvalue _ hfirst
    exact absurd hvalue.symm Partition.tagValue_ne_day
  | value a =>
    exact absurd (Address.mk.inj (Option.some.inj hfirst)).1 Partition.attributeKey_ne_day
  | folder parents name h => cases hfirst
  | leaf _ parents name h =>
    exact absurd (Address.mk.inj (Option.some.inj hfirst)).1 Partition.leaf_ne_day

namespace Table

variable {t : Tenant} {T : Table} {day : Day} {limit : Nat} {start : Option PageKey} {d : Document}
  {id : String}

theorem position?_liveRow (ht : d.tenant = t) (hday : d.insertedDay = day.text) :
    (Query.ofDay t day limit start).position? d.liveRow = some (.ofDay t d.inserted d.id) := by
  subst ht
  simp [Query.position?, Query.ofDay, Document.liveRow, Document.liveKey, RowKey.entry, hday,
    Position.ofDay, Row.address]

theorem mem_ordered_ofDay (h : T.Keeps t) {x : Position × Row} :
    x ∈ (Query.ofDay t day limit start).ordered T.rows ↔ ∃ d : Document, d.liveRow ∈ T ∧
      d.tenant = t ∧ d.insertedDay = day.text ∧ x = (.ofDay t d.inserted d.id, d.liveRow) := by
  obtain ⟨p, row⟩ := x
  rw [Query.mem_ordered]
  constructor
  · rintro ⟨hrow, hp⟩
    obtain ⟨⟨partition, sort⟩, hentry, hpartition, -⟩ :=
      isSome_position?.1 (Option.isSome_iff_exists.2 ⟨p, hp⟩)
    obtain rfl : partition = Partition.day t day.text := hpartition
    obtain ⟨d, ht, hday, rfl⟩ := (h.isLive hrow hentry Partition.isLive_day).eq_ofDay hentry
    have hposition := (position?_liveRow ht hday).symm.trans hp
    exact ⟨d, hrow, ht, hday, Prod.ext (Option.some.inj hposition).symm rfl⟩
  · rintro ⟨d, hrow, ht, hday, he⟩
    obtain ⟨rfl, rfl⟩ := Prod.mk.inj he
    exact ⟨hrow, position?_liveRow ht hday⟩

theorem onPage_iff {p : Position} : (Query.ofDay t day limit start).onPage T.rows p ↔
    p.IsPast start ∧ ∀ key, (T.query (.ofDay t day limit start)).last = some key →
      ¬p.IsPast (some key) := by
  have hstart : (Query.ofDay t day limit start).pastStart p ↔ p.IsPast start := by
    cases start <;> simp [Query.pastStart, Query.ofDay, Query.before, Position.IsPast]
  have hlast : ((Query.ofDay t day limit start).page T.rows).last =
      (T.query (.ofDay t day limit start)).last := rfl
  rw [Query.onPage, Bool.and_eq_true, hstart, hlast]
  cases (T.query (.ofDay t day limit start)).last <;> simp [Position.IsPast]

theorem isPast_of_last {key : PageKey} {p : Position}
    (hlast : (T.query (.ofDay t day limit start)).last = some key) (h : p.IsPast (some key)) :
    p.IsPast start := by
  have hkey := Query.pastStart_last hlast
  intro first hfirst
  have hfirst : start = some first := hfirst
  subst hfirst
  have hbefore : first.position < key.position := by
    simpa [Query.pastStart, Query.ofDay, Query.before] using hkey
  exact Position.lt_trans hbefore (h key rfl)

def dayPage (T : Table) (t : Tenant) (day : Day) (limit : Nat) (start : Option PageKey) :
    List Document :=
  (T.query (.ofDay t day limit start)).rows.filterMap Row.document?

theorem mem_dayPage (h : T.Keeps t) : d ∈ T.dayPage t day limit start ↔
    d.liveRow ∈ T ∧ d.tenant = t ∧ d.insertedDay = day.text ∧
      (Query.ofDay t day limit start).onPage T.rows (.ofDay t d.inserted d.id) := by
  rw [dayPage, query, Query.page_rows, List.mem_filterMap]
  constructor
  · rintro ⟨row, hrow, hd⟩
    obtain ⟨x, hx, rfl⟩ := List.mem_map.1 hrow
    obtain ⟨hx, hpage⟩ := List.mem_filter.1 hx
    obtain ⟨e, hlive, ht, hday, rfl⟩ := (mem_ordered_ofDay h).1 hx
    obtain rfl : e = d := Option.some.inj hd
    exact ⟨hlive, ht, hday, hpage⟩
  · rintro ⟨hlive, ht, hday, hpage⟩
    let x : Position × Row := (Position.ofDay t d.inserted d.id, d.liveRow)
    have hx : x ∈ (Query.ofDay t day limit start).ordered T.rows :=
      (mem_ordered_ofDay h).2 ⟨d, hlive, ht, hday, rfl⟩
    exact ⟨d.liveRow, List.mem_map.2 ⟨x, List.mem_filter.2 ⟨hx, hpage⟩, rfl⟩, rfl⟩

theorem dayPage_ordered (h : T.Keeps t) : (T.dayPage t day limit start).Pairwise fun a b =>
    Position.ofDay t a.inserted a.id < Position.ofDay t b.inserted b.id := by
  rw [dayPage, query, Query.page_rows, List.pairwise_filterMap, List.pairwise_map]
  have hsorted := ((Query.ofDay t day limit start).ordered_pairwise T.rows).filter
    fun a => (Query.ofDay t day limit start).onPage T.rows a.1
  refine hsorted.imp_of_mem fun {x y} hx hy hxy a ha b hb => ?_
  obtain ⟨d, -, -, -, rfl⟩ := (mem_ordered_ofDay h).1 (List.mem_filter.1 hx).1
  obtain ⟨e, -, -, -, rfl⟩ := (mem_ordered_ofDay h).1 (List.mem_filter.1 hy).1
  rw [Query.before_ofDay, decide_eq_true_eq] at hxy
  cases ha
  cases hb
  exact hxy

theorem eq_of_id_eq {e : Document} (hd : d.liveRow ∈ T) (he : e.liveRow ∈ T) (ht : d.tenant = t)
    (ht' : e.tenant = t) (hid : d.id = e.id) : d = e := by
  have haddress : d.liveRow.address = e.liveRow.address := by
    rw [Document.address_liveRow ht, Document.address_liveRow ht', hid]
  exact liveRow_injective (eq_of_address_eq hd he haddress)

theorem dayPage_distinct (h : T.Keeps t) :
    (T.dayPage t day limit start).Pairwise fun a b => a.id ≠ b.id := by
  refine (dayPage_ordered h).imp_of_mem fun {a b} ha hb hab hid => ?_
  obtain ⟨ha, hta, -⟩ := (mem_dayPage h).1 ha
  obtain ⟨hb, htb, -⟩ := (mem_dayPage h).1 hb
  obtain rfl := eq_of_id_eq ha hb hta htb hid
  exact Position.lt_irrefl _ hab

theorem count_dayPage (h : T.Keeps t) (hlive : T.document? t id = some d)
    (hday : d.inserted.day = day) : ((T.dayPage t day limit start).map Document.id).count id =
      if (Query.ofDay t day limit start).onPage T.rows (.ofDay t d.inserted id) then 1 else 0 := by
  obtain ⟨hrow, ht, rfl⟩ := (document?_eq_some_iff h).1 hlive
  have hmem : d.id ∈ (T.dayPage t day limit start).map Document.id ↔
      (Query.ofDay t day limit start).onPage T.rows (.ofDay t d.inserted d.id) := by
    rw [List.mem_map]
    constructor
    · rintro ⟨e, he, hid⟩
      obtain ⟨hrow', ht', -, hpage⟩ := (mem_dayPage h).1 he
      obtain rfl := eq_of_id_eq hrow' hrow ht' ht hid
      exact hpage
    · intro hpage
      exact ⟨d, (mem_dayPage h).2 ⟨hrow, ht, congrArg Day.text hday, hpage⟩, rfl⟩
  have hnodup : ((T.dayPage t day limit start).map Document.id).Nodup :=
    List.pairwise_map.2 (dayPage_distinct h)
  rw [hnodup.count, if_congr hmem rfl rfl]

end Table

namespace Document

/-- Inserted in an earlier millisecond, or in the same one with a smaller id. The milliseconds of a
leap second count on from those of the second before. -/
def ListedBefore (a b : Document) : Prop :=
  a.inserted.second < b.inserted.second ∨ a.inserted.second = b.inserted.second ∧
    (a.inserted.nanosecond / 1000000 < b.inserted.nanosecond / 1000000 ∨
      a.inserted.nanosecond / 1000000 = b.inserted.nanosecond / 1000000 ∧ a.id < b.id)

instance (a b : Document) : Decidable (a.ListedBefore b) :=
  inferInstanceAs (Decidable (_ ∨ _ ∧ _))

theorem listedBefore_of_lt {t : Tenant} {a b : Document} (ha : a.inserted.IsProper)
    (hb : b.inserted.IsProper) (hday : a.insertedDay = b.insertedDay)
    (h : Position.ofDay t a.inserted a.id < Position.ofDay t b.inserted b.id) :
    a.ListedBefore b := by
  have hrest {x y : String} : delimiter ++ x < delimiter ++ y → x < y :=
    Text.lt_of_append_lt_append
  rcases Position.lt_def.1 h with hsort | ⟨hsort, haddress⟩
  · simp only [Position.ofDay, String.append_assoc] at hsort
    rcases Instant.lt_of_millisecondText_append_lt ha hb hday hsort with hlt | ⟨he, hlt | ⟨he', hlt⟩⟩
    · exact .inl hlt
    · exact .inr ⟨he, .inl hlt⟩
    · exact .inr ⟨he, .inr ⟨he', hrest hlt⟩⟩
  · -- one place for both would be the place of one document
    simp only [Position.ofDay, String.append_assoc] at hsort
    have hid := Instant.append_inj_of_millisecondText ha hb hday hsort
    rw [String.append_right_inj] at hid
    simp only [Position.ofDay, hid] at haddress
    exact absurd haddress (Address.lt_irrefl _)

end Document

namespace Store

def walk (c : Config) (t : Tenant) (day : Day) :
    Store → PageRequest → List Turn → List (Table × Except Error Answer) :=
  pageThrough c t (.listDocumentsByDate day {})

variable {c : Config} {t : Tenant} {day : Day} {s : Store} {limit : Int}

def met (pages : List (Table × Page Document)) : List Document := pages.flatMap (·.2.items)

/-- A record of the document with this date of insertion is live in the tables of all pages. -/
def Stays (t : Tenant) (id : String) (inserted : Instant) (pages : List (Table × Page Document)) :
    Prop :=
  ∀ x ∈ pages, ∃ d : Document, x.1.document? t id = some d ∧ d.inserted = inserted

def Finished (pages : List (Table × Page Document)) : Prop :=
  ∃ last ∈ pages.getLast?, last.2.next = none

theorem finished_iff_ends {pages : List (Table × Page Document)} :
    Finished pages ↔ Page.Ends (pages.map (·.2)) := by
  unfold Finished Page.Ends
  cases h : pages.getLast? <;> simp [List.getLast?_map, h]

/-- Pages meet the documents of a day behind a start in order, and those that stay exactly once. -/
structure Meets (t : Tenant) (day : Day) (start : Option PageKey)
    (pages : List (Table × Page Document)) : Prop where
  behind : ∀ d ∈ met pages, d.insertedDay = day.text ∧
    Position.IsPast start (.ofDay t d.inserted d.id)
  ordered : (met pages).Pairwise fun a b =>
    Position.ofDay t a.inserted a.id < Position.ofDay t b.inserted b.id
  once : Finished pages → ∀ id inserted, inserted.day = day → Stays t id inserted pages →
    ((met pages).map Document.id).count id =
      if Position.IsPast start (.ofDay t inserted id) then 1 else 0

namespace Meets

variable {start : Option PageKey} {key : PageKey} {T : Table} {page : Page Document} {size : Nat}
  {pages : List (Table × Page Document)}

theorem nil : Meets t day start [] where
  behind _ hd := absurd hd List.not_mem_nil
  ordered := .nil
  once := nofun

theorem last (hkeeps : T.Keeps t) (hitems : page.items = T.dayPage t day size start)
    (hlast : (T.query (.ofDay t day size start)).last = none) :
    Meets t day start [(T, page)] := by
  have hmet : met [(T, page)] = T.dayPage t day size start := by simp [met, hitems]
  refine ⟨fun d hd => ?_, hmet ▸ Table.dayPage_ordered hkeeps, fun _ id inserted hday hstays => ?_⟩
  · rw [hmet, Table.mem_dayPage hkeeps, Table.onPage_iff] at hd
    exact ⟨hd.2.2.1, hd.2.2.2.1⟩
  · obtain ⟨d, hlive, rfl⟩ := hstays _ List.mem_cons_self
    rw [hmet, Table.count_dayPage hkeeps hlive hday]
    refine if_congr (Table.onPage_iff.trans (and_iff_left ?_)) rfl rfl
    rw [hlast]
    exact nofun

theorem cons (h : Meets t day (some key) pages) (hkeeps : T.Keeps t)
    (hitems : page.items = T.dayPage t day size start)
    (hlast : (T.query (.ofDay t day size start)).last = some key) (hnext : page.next.isSome) :
    Meets t day start ((T, page) :: pages) := by
  have hmet : met ((T, page) :: pages) = T.dayPage t day size start ++ met pages := by
    simp [met, hitems]
  have hpage (d : Document) (hd : d ∈ T.dayPage t day size start) := by
    rw [Table.mem_dayPage hkeeps, Table.onPage_iff] at hd
    exact hd.2.2
  refine ⟨fun d hd => ?_, ?_, fun hfinished id inserted hday hstays => ?_⟩
  · rw [hmet] at hd
    rcases List.mem_append.1 hd with hd | hd
    · exact ⟨(hpage d hd).1, (hpage d hd).2.1⟩
    · obtain ⟨hday, hpast⟩ := h.behind d hd
      exact ⟨hday, Table.isPast_of_last hlast hpast⟩
  · rw [hmet]
    refine List.pairwise_append.2 ⟨Table.dayPage_ordered hkeeps, h.ordered, fun a ha b hb => ?_⟩
    exact Position.lt_of_not_lt (fun hlt => (hpage a ha).2.2 key hlast fun k hk => by
      rwa [← Option.some.inj hk]) ((h.behind b hb).2 key rfl)
  · have hrest : Finished pages :=
      finished_iff_ends.2 ((Page.ends_cons hnext).1 (finished_iff_ends.1 hfinished))
    obtain ⟨d, hlive, rfl⟩ := hstays _ List.mem_cons_self
    have hstays' : Stays t id d.inserted pages := fun x hx => hstays x (List.mem_cons_of_mem _ hx)
    rw [hmet, List.map_append, List.count_append, Table.count_dayPage hkeeps hlive hday,
      h.once hrest id d.inserted hday hstays']
    by_cases hkey : Position.IsPast (some key) (.ofDay t d.inserted id)
    · have hnot : ¬(Query.ofDay t day size start).onPage T.rows (.ofDay t d.inserted id) :=
        fun hon => (Table.onPage_iff.1 hon).2 key hlast hkey
      rw [if_neg hnot, if_pos hkey, if_pos (Table.isPast_of_last hlast hkey)]
    · have hon : (Query.ofDay t day size start).onPage T.rows (.ofDay t d.inserted id) ↔
          Position.IsPast start (.ofDay t d.inserted id) := by
        refine Table.onPage_iff.trans (and_iff_left fun key' hkey' => ?_)
        rwa [Option.some.inj (hkey'.symm.trans hlast)]
      rw [if_neg hkey, if_congr hon rfl rfl, Nat.add_zero]

theorem of_follow {pages : List (Table × Page Row)}
    (h : Paging.Follow (.ofDay t day 100 none) size start pages) (hkeeps : ∀ x ∈ pages, x.1.Keeps t) :
    Meets t day start (pages.map fun x => (x.1, documentsOnly x.2)) := by
  have hdocuments {T : Table} {page : Page Row} {start : Option PageKey} (hT : T.Keeps t)
      (hitems : page.items = (T.query (.ofDay t day size start)).rows) :
      (documentsOnly page).items = T.dayPage t day size start := by
    simp only [documentsOnly, Page.withItems, hitems]
    exact firstsBy_eq_self (Table.dayPage_distinct hT)
  induction h with
  | stopped => exact .nil
  | last hitems hlast =>
    have hT := hkeeps _ List.mem_cons_self
    exact .last hT (hdocuments hT hitems) hlast
  | more hitems hlast hnext _ ih =>
    have hT := hkeeps _ List.mem_cons_self
    exact (ih fun x hx => hkeeps x (List.mem_cons_of_mem _ hx)).cons hT (hdocuments hT hitems) hlast
      hnext

end Meets

theorem walk_from {size : Option Int} {turns : List Turn} (hissued : s.HoldsIssued)
    (hsound : s.table.Sound t) (htenant : ∀ turn ∈ turns, ∀ r ∈ turn.between, r.tenant = t)
    (htime : Timely c turns) :
    ∃ pages : List (Table × Page Document),
      walk c t day s { limit := size } turns =
        pages.map (fun x => (x.1, .ok (.documentPage x.2))) ∧ Meets t day none pages := by
  have hsounds : ∀ x ∈ walk c t day s { limit := size } turns, x.1.Sound t :=
    forall_mem_pageThrough (fun turn hturn s hs => sound_run (htenant turn hturn) hs)
      (fun s _ _ hs => sound_step rfl hs) hsound
  obtain ⟨pages, hpages, hfollow, -⟩ : ∃ pages, walk c t day s { limit := size } turns = _ ∧ _ :=
    pageThrough_from (.day day {}) hissued (.first rfl) (fun _ _ _ => ⟨_, rfl⟩)
      (fun turn _ => isBefore_latest turn) htime
  rw [hpages] at hsounds ⊢
  refine ⟨pages.map fun x => (x.1, documentsOnly x.2), by rw [List.map_map]; rfl, ?_⟩
  exact .of_follow hfollow fun x hx => (hsounds _ (List.mem_map_of_mem hx)).keeps

/-- A walk through the documents of a day, with any requests of the tenant between those for the pages
and each token used before it expires: all pages are answered, their documents are in the order of
insertion, and once the last page is reached a document that stayed has been met exactly once. -/
theorem walk_through_day (c : Config) (name : String) (maxBatchSize : Nat) (clock : Clock)
    {requests : List Request} (hrequests : ∀ r ∈ requests, r.tenant = t) (day : Day)
    (size : Option Int) (turns : List Turn)
    (hturns : ∀ turn ∈ turns, ∀ r ∈ turn.between, r.tenant = t)
    (htime : turns.IsChain fun a b => b.IsBefore (Clock.after a.clock.now c.tokenLife)) :
    ∃ pages : List (Table × Page Document),
      walk c t day (run c (fresh name maxBatchSize clock) requests).2 { limit := size } turns =
        pages.map (fun x => (x.1, .ok (.documentPage x.2))) ∧
      (met pages).Pairwise (fun a b =>
        a.inserted.IsProper → b.inserted.IsProper → a.ListedBefore b) ∧
      (Finished pages → ∀ id inserted, inserted.day = day → Stays t id inserted pages →
        ((met pages).map Document.id).count id = 1) := by
  have hissued : (run c (fresh name maxBatchSize clock) requests).2.HoldsIssued :=
    holdsIssued_run (holdsIssued_fresh name maxBatchSize clock)
  have hsound : (run c (fresh name maxBatchSize clock) requests).2.table.Sound t :=
    sound_run hrequests (sound_fresh t name maxBatchSize clock)
  obtain ⟨pages, hpages, hmeets⟩ := walk_from hissued hsound hturns htime
  refine ⟨pages, hpages, hmeets.ordered.imp_of_mem fun {a b} ha hb hlt ha' hb' => ?_,
    fun hfinished id inserted hday hstays => ?_⟩
  · have hday := (hmeets.behind a ha).1.trans (hmeets.behind b hb).1.symm
    exact Document.listedBefore_of_lt ha' hb' hday hlt
  · rw [hmeets.once hfinished id inserted hday hstays, if_pos nofun]

/-- Between the pages the document goes that the last page ended with, the one that is listed last is
saved again, and another one comes in front of all. -/
def changingTurns : List Turn :=
  [⟨[], ⟨1⟩⟩, ⟨⟨.default, ⟨2⟩, .deleteDocument "a" false⟩ :: saves [ofSecond "c" 9, ofSecond "d" 0], ⟨3⟩⟩,
    ⟨[⟨.default, ⟨4⟩, .deleteDocument "b" true⟩], ⟨5⟩⟩]

theorem walk_through_changes :
    let s := (run {} (fresh "documents" 100 ⟨0⟩)
      (saves [ofSecond "c" 3, ofSecond "b" 2, ofSecond "a" 1])).2
    ∃ pages : List (Table × Page Document),
      walk {} .default ⟨1970, 1, 1⟩ s { limit := some 1 } changingTurns =
        pages.map (fun x => (x.1, .ok (.documentPage x.2))) ∧
      (met pages).Pairwise (fun a b =>
        a.inserted.IsProper → b.inserted.IsProper → a.ListedBefore b) ∧
      (met pages).map Document.id = ["a", "b", "c"] ∧
      Finished pages ∧ Stays .default "c" ⟨3, 0⟩ pages ∧
      ((met pages).map Document.id).count "c" = 1 := by
  intro s
  have hrequests : ∀ r ∈ saves [ofSecond "c" 3, ofSecond "b" 2, ofSecond "a" 1],
      r.tenant = .default := by
    decide
  obtain ⟨pages, hpages, hordered, honce⟩ := walk_through_day {} "documents" 100 ⟨0⟩ hrequests
    ⟨1970, 1, 1⟩ (some 1) changingTurns (by decide) (by decide +kernel)
  have hids : (met pages).map Document.id =
      (walk {} .default ⟨1970, 1, 1⟩ s { limit := some 1 } changingTurns).flatMap
        fun x => idsOf x.2 := by
    rw [hpages, List.flatMap_map, met, List.map_flatMap]
    rfl
  have hlast : pages.getLast?.map (fun x => x.2.next) =
      (walk {} .default ⟨1970, 1, 1⟩ s { limit := some 1 } changingTurns).getLast?.map
        fun x => following? x.2 := by
    rw [hpages, List.getLast?_map, Option.map_map]
    rfl
  have hlive : pages.map (fun x => (x.1.document? .default "c").map (·.inserted)) =
      (walk {} .default ⟨1970, 1, 1⟩ s { limit := some 1 } changingTurns).map
        fun x => (x.1.document? .default "c").map (·.inserted) := by
    rw [hpages, List.map_map]
    rfl
  have hfinished : Finished pages := by
    have hend : pages.getLast?.map (fun x => x.2.next) = some none :=
      hlast.trans (by decide +kernel)
    obtain ⟨last, hmem, hnone⟩ := Option.map_eq_some_iff.1 hend
    exact ⟨last, hmem, hnone⟩
  have hstays : Stays .default "c" ⟨3, 0⟩ pages := by
    intro x hx
    have hmem := List.mem_map_of_mem (f := fun x : Table × Page Document =>
      (x.1.document? .default "c").map (·.inserted)) hx
    have hthree : pages.map (fun x => (x.1.document? .default "c").map (·.inserted)) =
        List.replicate 3 (some ⟨3, 0⟩) := hlive.trans (by decide +kernel)
    rw [hthree] at hmem
    exact Option.map_eq_some_iff.1 (List.eq_of_mem_replicate hmem)
  refine ⟨pages, hpages, hordered, hids.trans (by decide +kernel), hfinished, hstays, ?_⟩
  exact honce hfinished "c" ⟨3, 0⟩ (by decide) hstays

end Store

end Cabinet
