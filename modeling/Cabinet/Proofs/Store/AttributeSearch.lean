import Cabinet.Proofs.Criteria.Meaning
import Cabinet.Proofs.Store.PagingThrough
import Cabinet.Proofs.Store.Searching
import Cabinet.Proofs.Store.SideBySide

/-! Searching for documents by one attribute, page after page. Main statements: the pages list exactly
the documents with a value that the criterion accepts, and a document is listed once exactly when all
its values are on one page. -/

namespace Cabinet

namespace Table

variable {c : Config} {t : Tenant} {T T' : Table} {key id : String} {condition : Condition}
  {a : Attribute} {d : Document} {rows : List Row}

/-- The attributes of a key whose values meet a condition, in the order of the index. -/
def matchingValues (T : Table) (t : Tenant) (key : String) (condition : Condition) :
    List Attribute :=
  (T.queryAll (.matching t key condition)).filterMap Row.attribute?

theorem queryAll_matching (h : T.Keeps t) : T.queryAll (.matching t key condition) =
    (T.matchingValues t key condition).map (·.row t) := by
  have hrow : ∀ row ∈ T.queryAll (.matching t key condition),
      row.attribute?.map (·.row t) = some row := by
    intro row hrow
    obtain ⟨hmem, hposition⟩ := (mem_queryAll rfl).1 hrow
    obtain ⟨a, rfl, -⟩ := (Store.isSome_position?_matching h hmem).1 hposition
    rfl
  rw [matchingValues, List.map_filterMap, List.filterMap_congr hrow, List.filterMap_some]

theorem mem_matchingValues (h : T.Keeps t) : a ∈ T.matchingValues t key condition ↔
    a.row t ∈ T ∧ a.key = key ∧ condition.holds a.value.indexText := by
  rw [matchingValues, List.mem_filterMap]
  constructor
  · rintro ⟨row, hrow, ha⟩
    obtain ⟨hmem, hposition⟩ := (mem_queryAll rfl).1 hrow
    obtain ⟨b, rfl, hb⟩ := (Store.isSome_position?_matching h hmem).1 hposition
    obtain rfl : b = a := Option.some.inj ha
    exact ⟨hmem, hb⟩
  · rintro ⟨hmem, hholds⟩
    exact ⟨a.row t, (mem_queryAll rfl).2
      ⟨hmem, (Store.isSome_position?_matching h hmem).2 ⟨a, rfl, hholds⟩⟩, rfl⟩

theorem id_of_document? (h : T.Keeps t) (hd : T.document? t id = some d) : d.id = id :=
  ((document?_eq_some_iff h).1 hd).2.2

def documentsOf (T : Table) (t : Tenant) (rows : List Row) : List Document :=
  (Store.matchedIds rows).filterMap (T.document? t)

theorem lookUp_matchedIds (h : T.Keeps t) (hname : T.name = c.documentsTable)
    (hmax : 0 < T.maxBatchSize) (rows : List Row) :
    (T.lookUp c t (Store.matchedIds rows)).1 = .ok (T.documentsOf t rows) := by
  rw [lookUp_eq h hname hmax, Store.matchedIds, firsts_firsts]
  rfl

theorem mem_documentsOf (h : T.Keeps t) : d ∈ T.documentsOf t rows ↔
    T.document? t d.id = some d ∧ ∃ row ∈ rows, ∃ a, row.attribute? = some a ∧ a.documentId = d.id := by
  rw [documentsOf, List.mem_filterMap]
  simp only [Store.mem_matchedIds]
  constructor
  · rintro ⟨id, hrow, hd⟩
    obtain rfl := id_of_document? h hd
    exact ⟨hd, hrow⟩
  · rintro ⟨hd, hrow⟩
    exact ⟨d.id, hrow, hd⟩

def documentPage (T : Table) (t : Tenant) (page : Page Row) : Page Document :=
  page.withItems (T.documentsOf t page.items)

theorem ends_documentPage {pages : List (Page Row)} :
    Page.Ends (pages.map (T.documentPage t)) ↔ Page.Ends pages :=
  Page.ends_map fun _ => rfl

theorem mem_flatMap_documentPage (h : T.Keeps t) {pages : List (Page Row)} :
    d ∈ (pages.map (T.documentPage t)).flatMap Page.items ↔
      d ∈ T.documentsOf t (pages.flatMap Page.items) := by
  rw [mem_documentsOf h, List.flatMap_map]
  simp only [List.mem_flatMap, documentPage, Page.withItems, mem_documentsOf h]
  constructor
  · rintro ⟨page, hpage, hd, row, hrow, ha⟩
    exact ⟨hd, row, ⟨page, hpage, hrow⟩, ha⟩
  · rintro ⟨hd, row, ⟨page, hpage, hrow⟩, ha⟩
    exact ⟨page, hpage, hd, row, hrow, ha⟩

theorem documentsOf_subset (h : T.Keeps t) {rows' : List Row} (hrows : rows ⊆ rows') :
    T.documentsOf t rows ⊆ T.documentsOf t rows' := by
  intro d hd
  rw [mem_documentsOf h] at hd ⊢
  obtain ⟨hlive, row, hrow, ha⟩ := hd
  exact ⟨hlive, row, hrows hrow, ha⟩

/-- What rows of a sound table belong to is live, so that no id is passed over. -/
theorem ids_documentsOf (h : T.SoundTo t)
    (hrows : ∀ row ∈ rows, ∃ a : Attribute, row = a.row t ∧ row ∈ T) :
    (T.documentsOf t rows).map Document.id = Store.matchedIds rows := by
  have hfound : ∀ id ∈ Store.matchedIds rows, (T.document? t id).map Document.id = some id := by
    intro id hid
    obtain ⟨row, hrow, a, ha, rfl⟩ := Store.mem_matchedIds.1 hid
    obtain ⟨b, rfl, hmem⟩ := hrows row hrow
    obtain rfl : b = a := Option.some.inj ha
    obtain ⟨d, hd⟩ := Option.isSome_iff_exists.1 (h.isSome_document?_of_value hmem)
    rw [hd, Option.map_some, id_of_document? h.keeps hd]
  rw [documentsOf, List.map_filterMap, List.filterMap_congr hfound, List.filterMap_some]

theorem nodup_matchingValues_equals (h : T.Keeps t) (value : String) :
    ((T.matchingValues t key (.equals value)).map (·.documentId)).Nodup := by
  have hrows : ((T.matchingValues t key (.equals value)).map (·.row t)).Nodup := by
    rw [← queryAll_matching h]
    exact queryAll_nodup rfl
  refine (List.Nodup.of_map _ hrows).map_on fun a ha b hb hid => ?_
  obtain ⟨hmem, hkey, hvalue⟩ := (mem_matchingValues h).1 ha
  obtain ⟨hmem', hkey', hvalue'⟩ := (mem_matchingValues h).1 hb
  have hsame : a.value.indexText = b.value.indexText :=
    (of_decide_eq_true hvalue).trans (of_decide_eq_true hvalue').symm
  refine Attribute.row_injective (t := t) (eq_of_address_eq hmem hmem' ?_)
  simp only [Row.address, Attribute.row, Attribute.rowKey, hid, hkey, hkey', hsame]

/-- On the pages of the values that meet a condition no document stands twice exactly when the values
of each document are on one page. -/
theorem nodup_ids_iff (h : T.SoundTo t) {n : Nat} (hn : 0 < n) {pages : List (Page Row)}
    (hcuts : Paging.Cuts n (T.queryAll (.matching t key condition)) pages) (hends : Page.Ends pages) :
    (((pages.map (T.documentPage t)).flatMap Page.items).map Document.id).Nodup ↔
      Paging.OnOnePage n ((T.matchingValues t key condition).map (·.documentId)) := by
  let owner? (row : Row) : Option String := row.attribute?.map (·.documentId)
  have hrows : ∀ row ∈ T.queryAll (.matching t key condition),
      ∃ a : Attribute, row = a.row t ∧ row ∈ T := by
    intro row hrow
    rw [queryAll_matching h.keeps] at hrow
    obtain ⟨a, ha, rfl⟩ := List.mem_map.1 hrow
    exact ⟨a, rfl, ((mem_matchingValues h.keeps).1 ha).1⟩
  have hids : ∀ page ∈ pages, (T.documentPage t page).items.map Document.id =
      firsts (page.items.filterMap owner?) := by
    intro page hpage
    refine (ids_documentsOf h fun row hrow => hrows row (hcuts.items_subset ?_)).trans ?_
    · exact List.mem_flatMap.2 ⟨page, hpage, hrow⟩
    · rw [Store.matchedIds, List.map_filterMap]
  rw [List.map_flatMap, List.flatMap_map, List.flatMap_congr hids, matchingValues, List.map_filterMap]
  refine hcuts.nodup_iff hn hends fun row hrow => ?_
  obtain ⟨a, rfl, -⟩ := hrows row hrow
  rfl

/-- A live document has a value of the key that the criterion accepts. -/
def Matches (T : Table) (t : Tenant) (x : Criterion) (d : Document) : Prop :=
  T.document? t d.id = some d ∧ ∃ a ∈ T.attributesOf t d.id x.key, x.Accepts a.value.indexText

theorem mem_documentsOf_queryAll (h : T.Keeps t) {x : Criterion}
    (hholds : ∀ text, condition.holds text ↔ x.Accepts text) :
    d ∈ T.documentsOf t (T.queryAll (.matching t x.key condition)) ↔ T.Matches t x d := by
  rw [mem_documentsOf h, queryAll_matching h, Matches]
  simp only [List.mem_map, exists_exists_and_eq_and]
  refine and_congr_right fun _ => exists_congr fun a => ?_
  rw [mem_matchingValues h, mem_attributesOf h, hholds]
  constructor
  · rintro ⟨⟨hmem, hkey, haccepts⟩, b, hb, hid⟩
    obtain rfl : a = b := Option.some.inj hb
    exact ⟨⟨hmem, hid, hkey⟩, haccepts⟩
  · rintro ⟨⟨hmem, hid, hkey⟩, haccepts⟩
    exact ⟨⟨hmem, hkey, haccepts⟩, a, rfl, hid⟩

end Table

namespace Store

variable {c : Config} {tenants : Tenant → Prop} {t : Tenant} {criteria : Criteria}
  {condition : Condition} {s : Store} {size : Option Int} {turns : List Turn}

/-- What holds for each tenant after requests of tenants side by side, if the table is the one that the
configuration names. -/
structure Ready (c : Config) (t : Tenant) (s : Store) : Prop where
  sound : s.table.SoundTo t
  issued : s.HoldsIssued
  name : s.table.name = c.documentsTable
  batches : 0 < s.table.maxBatchSize

theorem ready_run (c : Config) {maxBatchSize : Nat} (hmax : 0 < maxBatchSize) (clock : Clock)
    (hapart : ∀ t u, tenants t → tenants u → u ≠ t → u.Apart t) {requests : List Request}
    (hrequests : ∀ r ∈ requests, tenants r.tenant) (ht : tenants t) :
    (run c (fresh c.documentsTable maxBatchSize clock) requests).2.Ready c t := by
  have hsettings := settings_run c (fresh c.documentsTable maxBatchSize clock) requests
  simp only [Table.settings, Prod.mk.injEq] at hsettings
  exact ⟨soundTo_run hapart hrequests ht (filedBy_fresh _ _ _ _) (soundTo_fresh _ _ _ _),
    holdsIssued_run (holdsIssued_fresh c.documentsTable maxBatchSize clock),
    hsettings.1, hsettings.2.1 ▸ hmax⟩

theorem search_pages (h : s.Ready c t) (hplan : criteria.compile.plan = .single condition)
    (hgroup : criteria.isComposite → c.hasGroup criteria.keys)
    (hsteady : Steady s.table.rows
      (pageThrough c t (.search criteria {}) s { limit := size } turns))
    (htime : Timely c turns) :
    ∃ pages : List (Page Row),
      (pageThrough c t (.search criteria {}) s { limit := size } turns).map (·.2) =
        pages.map (fun page =>
          .ok (.documentPage (s.table.documentPage t page))) ∧
      Paging.Cuts (Paging.clampLimit c size)
        (s.table.queryAll (.matching t criteria.compile.key condition)) pages ∧
      (s.table.rows.size < turns.length → Page.Ends pages) := by
  have hop := Operation.Pages.search (t := t) {} hplan hgroup
  -- the table of a page differs in its count of batches only
  have hanswer (T : Table) (page : Page Row) (hrows : T.rows = s.table.rows)
      (hsettings : T.settings = s.table.settings) :
      (T.lookUp c t (matchedIds page.items)).1 = .ok (s.table.documentsOf t page.items) := by
    obtain ⟨name, maxBatchSize, rows, others, batchCalls⟩ := T
    obtain rfl : rows = s.table.rows := hrows
    simp only [Table.settings, Prod.mk.injEq] at hsettings
    exact Table.lookUp_matchedIds (T := ⟨name, maxBatchSize, s.table.rows, others, batchCalls⟩)
      h.sound.keeps (hsettings.1.trans h.name) (hsettings.2.1 ▸ h.batches) page.items
  obtain ⟨pages, hpages, hsame, hcuts, hends⟩ := pageThrough_eq hop
    (fun T page hrows hsettings => ⟨_, by rw [hanswer T page hrows hsettings]; rfl⟩) h.issued
    hsteady htime
  refine ⟨pages.map (·.2), ?_, ?_, hends⟩
  · rw [hpages, List.map_map, List.map_map]
    refine List.map_congr_left fun x hx => ?_
    simp only [Function.comp_apply]
    rw [hanswer x.1 x.2 (hsame x hx).1 (hsame x hx).2]
    rfl
  · rw [Table.queryAll, Query.drain_eq, Query.remaining_of_start_none rfl]
    exact hcuts

theorem exists_lists (hc : c.Valid) (h : s.Ready c t)
    (hplan : criteria.compile.plan = .single condition)
    (hgroup : criteria.isComposite → c.hasGroup criteria.keys) :
    ∃ documents, Lists c t criteria s documents := by
  obtain ⟨turns, hsteady, htime, hlength⟩ :=
    exists_turns hc (Operation.Pages.search {} hplan hgroup) s {}
  obtain ⟨pages, hpages, -, hends⟩ := search_pages h hplan hgroup hsteady htime
  refine ⟨_, none, turns, pages.map (s.table.documentPage t), hsteady, htime, ?_,
    Table.ends_documentPage.2 (hends hlength), rfl⟩
  rw [hpages, List.map_map]
  rfl

/-- However it is paged, a search that is followed while the table stays the same and no token expires
lists documents with a property only, and all of them up to the last page; the last page is reached. -/
def Finds (c : Config) (t : Tenant) (criteria : Criteria) (P : Document → Prop) (s : Store) : Prop :=
  ∀ (size : Option Int) (turns : List Turn),
    let answers := pageThrough c t (.search criteria {}) s { limit := size } turns
    Steady s.table.rows answers → Timely c turns →
      ∃ pages : List (Page Document),
        answers.map (·.2) = pages.map (fun page => .ok (.documentPage page)) ∧
        (∀ d ∈ pages.flatMap Page.items, P d) ∧
        (Page.Ends pages → ∀ d, P d → d ∈ pages.flatMap Page.items) ∧
        (s.table.rows.size < turns.length → Page.Ends pages)

theorem Finds.mem_iff {P : Document → Prop} {documents : List Document} (h : s.Finds c t criteria P)
    (hlists : Lists c t criteria s documents) (d : Document) : d ∈ documents ↔ P d := by
  obtain ⟨size, turns, pages, hsteady, htime, hpages, hends, rfl⟩ := hlists
  obtain ⟨pages', hpages', hsound, hcomplete, -⟩ := h size turns hsteady htime
  obtain rfl := eq_of_answers hpages hpages'
  exact ⟨hsound d, hcomplete hends d⟩

section

variable {limit : Nat} {x : Criterion} (h : s.Ready c t)
  (hcheck : Criteria.check limit [x] = .ok criteria) (hchoice : x.eqOr = none)

include h hcheck hchoice

theorem finds_matches : s.Finds c t criteria (s.table.Matches t x) := by
  intro size turns answers hsteady htime
  obtain ⟨hkey, hsingle, condition, hplan, hholds⟩ := Criteria.exists_condition hcheck hchoice
  have hgroup : criteria.isComposite → c.hasGroup criteria.keys := by
    rw [hsingle]
    nofun
  obtain ⟨pages, hpages, hcuts, hends⟩ := search_pages h hplan hgroup hsteady htime
  rw [hkey] at hcuts
  have hkeeps := h.sound.keeps
  refine ⟨pages.map (s.table.documentPage t), by rw [hpages, List.map_map]; rfl, fun d hd => ?_,
    fun hlast d hd => ?_, fun hturns => Table.ends_documentPage.2 (hends hturns)⟩
  · rw [Table.mem_flatMap_documentPage hkeeps] at hd
    exact (Table.mem_documentsOf_queryAll hkeeps hholds).1
      (Table.documentsOf_subset hkeeps hcuts.items_subset hd)
  · rw [Table.mem_flatMap_documentPage hkeeps, hcuts.items_eq (Table.ends_documentPage.1 hlast)]
    exact (Table.mem_documentsOf_queryAll hkeeps hholds).2 hd

theorem finds_iff (hc : c.Valid) {P : Document → Prop} :
    s.Finds c t criteria P ↔ ∀ d, P d ↔ s.table.Matches t x d := by
  have hmatches := finds_matches h hcheck hchoice
  constructor
  · intro hfinds
    obtain ⟨-, hsingle, condition, hplan, -⟩ := Criteria.exists_condition hcheck hchoice
    obtain ⟨documents, hlists⟩ := exists_lists hc h hplan (by rw [hsingle]; nofun)
    intro d
    rw [← hfinds.mem_iff hlists, hmatches.mem_iff hlists]
  · intro hiff
    obtain rfl : P = s.table.Matches t x := funext fun d => propext (hiff d)
    exact hmatches

end

/-- After any requests of tenants side by side, a search by one attribute without choice finds exactly
the documents with a value that the criterion accepts. -/
theorem search_finds_matches (c : Config) {maxBatchSize : Nat} (hmax : 0 < maxBatchSize)
    (clock : Clock) (hapart : ∀ t u, tenants t → tenants u → u ≠ t → u.Apart t)
    {requests : List Request} (hrequests : ∀ r ∈ requests, tenants r.tenant) (ht : tenants t)
    {x : Criterion} (hcheck : Criteria.check c.maxCombinations [x] = .ok criteria)
    (hchoice : x.eqOr = none) :
    let s := (run c (fresh c.documentsTable maxBatchSize clock) requests).2
    s.Finds c t criteria (s.table.Matches t x) :=
  finds_matches (ready_run c hmax clock hapart hrequests ht) hcheck hchoice

def memosFiled : List Request :=
  saves [ofSecond "p" 1, ofSecond "q" 2, ofSecond "r" 3] ++
    [("p", ["memo/a", "memo/b"]), ("q", ["memo/c"]), ("r", ["note"])].map fun filed =>
      ⟨.default, ⟨0⟩, .setAttributes filed.1
        (filed.2.map fun kind => ⟨filed.1, "kind", .text kind, "u", ⟨1, 0⟩⟩)⟩

def memos : Criterion := { key := "kind", beginsWith := some "memo/" }

def memoTurns : List Turn := [⟨[], ⟨1⟩⟩, ⟨[Browses.siteLooks], ⟨3⟩⟩, ⟨[Browses.siteLooks], ⟨4⟩⟩]

theorem search_finds_memos :
    let s := (run {} (fresh "documents" 1 ⟨0⟩) memosFiled).2
    let answers := pageThrough {} .default (.search ⟨[memos]⟩ {}) s { limit := some 1 } memoTurns
    Criteria.check 100 [memos] = .ok ⟨[memos]⟩ ∧
      s.Finds {} .default ⟨[memos]⟩ (s.table.Matches .default memos) ∧
      Steady s.table.rows answers ∧ Timely {} memoTurns ∧ ∃ pages : List (Page Document),
        answers.map (·.2) = pages.map (fun page => .ok (.documentPage page)) ∧
        pages.map (fun page => page.items.map Document.id) = [["p"], ["p"], ["q"]] ∧
        ∀ d, d ∈ pages.flatMap Page.items ↔ s.table.Matches .default memos d := by
  intro s answers
  have hcheck : Criteria.check 100 [memos] = .ok ⟨[memos]⟩ := by decide
  have hsteady : Steady s.table.rows answers := by decide +kernel
  have htime : Timely {} memoTurns := by decide
  have hfinds : s.Finds {} .default ⟨[memos]⟩ (s.table.Matches .default memos) :=
    search_finds_matches {} (by decide) ⟨0⟩ (Tenant.apart_of_eq .default) (by decide) rfl hcheck rfl
  obtain ⟨pages, hpages, -⟩ := hfinds (some 1) memoTurns hsteady htime
  have hends : Page.Ends pages := (ends_iff_of_answers hpages).2 (by decide +kernel)
  refine ⟨hcheck, hfinds, hsteady, htime, pages, hpages, ?_,
    hfinds.mem_iff ⟨some 1, memoTurns, pages, hsteady, htime, hpages, hends, rfl⟩⟩
  rw [ids_of_answers hpages]
  decide +kernel

/-- A search under one condition, by one attribute or several together, lists no document twice exactly
when the values that meet the condition and are of one document are on one page, hence never when one
value is asked for. -/
theorem lists_once_iff (c : Config) {maxBatchSize : Nat} (hmax : 0 < maxBatchSize) (clock : Clock)
    (hapart : ∀ t u, tenants t → tenants u → u ≠ t → u.Apart t) {requests : List Request}
    (hrequests : ∀ r ∈ requests, tenants r.tenant) (ht : tenants t)
    (hplan : criteria.compile.plan = .single condition)
    (hgroup : criteria.isComposite → c.hasGroup criteria.keys) (size : Option Int)
    (turns : List Turn) :
    let s := (run c (fresh c.documentsTable maxBatchSize clock) requests).2
    let answers := pageThrough c t (.search criteria {}) s { limit := size } turns
    Steady s.table.rows answers → Timely c turns →
      ∃ pages : List (Page Document),
        answers.map (·.2) = pages.map (fun page => .ok (.documentPage page)) ∧
        (Page.Ends pages → (((pages.flatMap Page.items).map Document.id).Nodup ↔
          Paging.OnOnePage (Paging.clampLimit c size)
            ((s.table.matchingValues t criteria.compile.key condition).map (·.documentId)))) ∧
        (Page.Ends pages → (∃ value, condition = .equals value) →
          ((pages.flatMap Page.items).map Document.id).Nodup) ∧
        (s.table.rows.size < turns.length → Page.Ends pages) := by
  intro s answers hsteady htime
  have hready : s.Ready c t := ready_run c hmax clock hapart hrequests ht
  obtain ⟨pages, hpages, hcuts, hends⟩ := search_pages hready hplan hgroup hsteady htime
  have honce (hlast : Page.Ends (pages.map (s.table.documentPage t))) :=
    Table.nodup_ids_iff hready.sound (Paging.clampLimit_pos c size) hcuts
      (Table.ends_documentPage.1 hlast)
  refine ⟨pages.map (s.table.documentPage t), by rw [hpages, List.map_map]; rfl, honce, ?_,
    fun hturns => Table.ends_documentPage.2 (hends hturns)⟩
  rintro hlast ⟨value, rfl⟩
  exact (honce hlast).2
    (Paging.onOnePage_of_nodup (Table.nodup_matchingValues_equals hready.sound.keeps value))

theorem memos_list_once :
    let s := (run {} (fresh "documents" 1 ⟨0⟩) memosFiled).2
    let answers := pageThrough {} .default (.search ⟨[memos]⟩ {}) s { limit := some 2 } memoTurns
    Steady s.table.rows answers ∧ Timely {} memoTurns ∧
      Paging.OnOnePage 2
        ((s.table.matchingValues .default "kind" (.beginsWith "memo/")).map (·.documentId)) ∧
      ∃ pages : List (Page Document),
        answers.map (·.2) = pages.map (fun page => .ok (.documentPage page)) ∧ Page.Ends pages ∧
        ((pages.flatMap Page.items).map Document.id).Nodup := by
  intro s answers
  have hsteady : Steady s.table.rows answers := by decide +kernel
  have htime : Timely {} memoTurns := by decide
  have hpage : Paging.OnOnePage 2
      ((s.table.matchingValues .default "kind" (.beginsWith "memo/")).map (·.documentId)) := by
    decide +kernel
  have hplan : (Criteria.mk [memos]).compile.plan = .single (.beginsWith "memo/") := by decide
  obtain ⟨pages, hpages, honce, -⟩ := lists_once_iff {} (by decide) ⟨0⟩
    (Tenant.apart_of_eq .default) (by decide) rfl hplan (by decide) (some 2) memoTurns hsteady htime
  have hends : Page.Ends pages := (ends_iff_of_answers hpages).2 (by decide +kernel)
  exact ⟨hsteady, htime, hpage, pages, hpages, hends, (honce hends).2 hpage⟩

/-- The memos of a document are on two pages. -/
theorem memos_list_twice :
    let s := (run {} (fresh "documents" 1 ⟨0⟩) memosFiled).2
    let answers := pageThrough {} .default (.search ⟨[memos]⟩ {}) s { limit := some 1 } memoTurns
    Criteria.check 100 [memos] = .ok ⟨[memos]⟩ ∧ Steady s.table.rows answers ∧
      Timely {} memoTurns ∧ answers.map (fun x => idsOf x.2) = [["p"], ["p"], ["q"]] ∧
      answers.getLast?.map (fun x => following? x.2) = some none ∧
      ¬(answers.flatMap fun x => idsOf x.2).Nodup := by
  decide +kernel

end Store

end Cabinet
