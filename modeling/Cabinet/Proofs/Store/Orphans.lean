import Cabinet.Proofs.Store.AttributeSearch

/-! Rows of documents that are not there. Main statement: in every store that the requests of one
tenant lead to, a partition of a document with a row in it has the record of the document, live or
soft-deleted, and no document that a search comes upon is missing from its answer. -/

namespace Cabinet

namespace Table

variable {t : Tenant} {T : Table} {c : Config} {id : String} {ids : List String} {d : Document}
  {documents : List Document}

theorem eq_nil_of_lookUp (hmax : T.maxBatchSize = 0) (h : (T.lookUp c t ids).1 = .ok documents) :
    ids = [] := by
  obtain ⟨found, hread, -⟩ := read_of_lookUp h
  simpa [BatchRequest.extend] using Batch.wanted_eq_nil_of_read hmax hread

def deletedDocument? (T : Table) (t : Tenant) (id : String) : Option Document :=
  (T.get? ⟨SoftDelete.markKey t (Partition.document t id),
    SoftDelete.markKey .default SortKey.document⟩).bind Row.document?

theorem deletedDocument?_eq_some (hrow : d.liveRow.marked t ∈ T) (ht : d.tenant = t) :
    T.deletedDocument? t d.id = some d := by
  have hget : T.get? (d.liveRow.marked t).address = some (d.liveRow.marked t) :=
    get?_eq_some_iff.2 ⟨hrow, rfl⟩
  have haddress : (d.liveRow.marked t).address = ⟨SoftDelete.markKey t (Partition.document t d.id),
      SoftDelete.markKey .default SortKey.document⟩ := by
    rw [Row.address_marked, Document.address_liveRow ht]
    rfl
  rw [haddress] at hget
  rw [deletedDocument?, hget]
  rfl

/-- A row that stands among the values of an attribute key. -/
def IsValueRow (t : Tenant) (T : Table) (row : Row) : Prop :=
  row ∈ T ∧ ∃ key text, row.key.first = some ⟨Partition.attributeKey t key, text⟩

theorem isValueRow_of_position? {key : String} {condition : Condition} {row : Row} (hrow : row ∈ T)
    (h : ((Query.matching t key condition).position? row).isSome) : T.IsValueRow t row := by
  obtain ⟨⟨partition, text⟩, hentry, hpartition, -⟩ := isSome_position?.1 h
  obtain rfl : partition = Partition.attributeKey t key := hpartition
  exact ⟨hrow, key, text, hentry⟩

theorem Sound.document_live_of_isValueRow (h : T.Sound t) {row : Row} (hrow : T.IsValueRow t row) :
    ∃ a, row.attribute? = some a ∧ (T.document? t a.documentId).isSome := by
  obtain ⟨hmem, key, text, hentry⟩ := hrow
  have hlive : row.IsLive t :=
    h.keeps.isLive (i := .first) hmem hentry Partition.isLive_attributeKey
  obtain ⟨a, rfl, -⟩ := hlive.eq_value hentry
  exact ⟨a, rfl, h.owned _ hmem a.documentId rfl⟩

theorem lookUp_live (h : T.Keeps t) (hname : T.name = c.documentsTable) (hids : ids.Nodup)
    (hlive : ∀ id ∈ ids, (T.document? t id).isSome) :
    (0 < T.maxBatchSize → (T.lookUp c t ids).1.isOk) ∧
      ∀ documents, (T.lookUp c t ids).1 = .ok documents → documents.map (·.id) = ids := by
  constructor
  · intro hmax
    rw [lookUp_eq h hname hmax]
    rfl
  intro documents hok
  rcases Nat.eq_zero_or_pos T.maxBatchSize with hzero | hmax
  · obtain rfl := eq_nil_of_lookUp hzero hok
    rw [List.map_eq_nil_iff, List.eq_nil_iff_forall_not_mem]
    exact fun d hd => List.not_mem_nil (id_mem_of_lookUp hok d hd)
  · rw [lookUp_eq h hname hmax, firsts_eq_self hids] at hok
    rw [← Except.ok.inj hok, List.map_filterMap]
    have hfound : ∀ id ∈ ids, (T.document? t id).map (·.id) = some id := by
      intro id hid
      obtain ⟨d, hd⟩ := Option.isSome_iff_exists.1 (hlive id hid)
      rw [hd, Option.map_some, id_of_document? h hd]
    rw [List.filterMap_congr hfound, List.filterMap_some]

end Table

namespace Store

variable {c : Config} {t : Tenant} {s : Store} {rows : List Row} {documents : List Document}

theorem nodup_matchedIds (rows : List Row) : (matchedIds rows).Nodup := nodup_firsts _

theorem document_live_of_matched (h : s.table.Sound t)
    (hrows : ∀ row ∈ rows, s.table.IsValueRow t row) :
    ∀ id ∈ matchedIds rows, (s.table.document? t id).isSome := by
  intro id hid
  obtain ⟨row, hrow, a, ha, rfl⟩ := mem_matchedIds.1 hid
  obtain ⟨b, hb, hlive⟩ := h.document_live_of_isValueRow (hrows row hrow)
  obtain rfl : b = a := Option.some.inj (hb.symm.trans ha)
  exact hlive

/-- The ids that a search looks up: those of the rows on a page, or for a choice of values those of
all rows up to the limit. -/
def foundIds (c : Config) (t : Tenant) (criteria : Criteria) (request : PageRequest) :
    Action (List String) := do
  let compiled := criteria.compile
  match compiled.plan with
  | .single condition =>
    return matchedIds (← Paging.query c (.matching t compiled.key condition) request).items
  | .expand values =>
    let table ← Action.table
    let rows := values.flatMap fun value => table.queryAll (.matching t compiled.key (.equals value))
    return (matchedIds rows).take (Paging.clampLimit c request.limit)

theorem items_search (hgroup : criteria.isComposite → c.hasGroup criteria.keys) :
    ((search c t criteria request).run s).1.map Page.items =
      ((foundIds c t criteria request >>= findDocuments c t).run s).1 := by
  simp only [search, foundIds, Operation.Pages.not_refused hgroup]
  rw [if_neg Bool.false_ne_true]
  cases criteria.compile.plan with
  | single condition =>
    have hquery : Paging.query c
        { index := .first, partition := Partition.attributeKey t criteria.compile.key,
          condition := some condition } request =
        Paging.query c (.matching t criteria.compile.key condition) request := rfl
    simp only [Action.run_bind, hquery]
    rcases (Paging.query c (.matching t criteria.compile.key condition) request).run s
      with ⟨e | rows, s'⟩
    · rfl
    · simp only [Action.run_pure, Store.run_findDocuments]
      cases (s'.table.lookUp c t (matchedIds rows.items)).1 <;> rfl
  | expand values =>
    simp only [Action.run_bind, Action.run_table, Action.run_pure, Store.run_findDocuments,
      Query.matching]
    generalize (matchedIds _).take _ = ids
    cases (s.table.lookUp c t ids).1 <;> rfl

theorem hasGroup_of_search {page : Page Document}
    (hanswer : ((search c t criteria request).run s).1 = .ok page) :
    criteria.isComposite → c.hasGroup criteria.keys := by
  intro hcomposite
  by_contra hgroup
  rw [Bool.not_eq_true] at hgroup
  simp only [search, hcomposite, hgroup, Bool.not_false, Bool.and_self, if_true] at hanswer
  cases hanswer

theorem foundIds_live (h : s.table.Sound t) {ids : List String} {s' : Store}
    (hfound : (foundIds c t criteria request).run s = (.ok ids, s')) :
    (∃ n, s'.table = { s.table with batchCalls := n }) ∧ ids.Nodup ∧
      ∀ id ∈ ids, (s.table.document? t id).isSome := by
  simp only [foundIds] at hfound
  split at hfound
  · -- one page of rows
    rename_i condition _
    rcases hquery : (Paging.query c (.matching t criteria.compile.key condition) request).run s
      with ⟨e | page, s''⟩ <;> rw [Action.run_bind, hquery] at hfound
    · cases hfound
    · obtain ⟨hids, rfl⟩ := Prod.mk.inj hfound
      obtain rfl := Except.ok.inj hids
      obtain ⟨n, hn⟩ :=
        Action.onlyReads_query c (.matching t criteria.compile.key condition) request s
      rw [hquery] at hn
      refine ⟨⟨n, hn⟩, nodup_matchedIds _, document_live_of_matched h fun row hrow => ?_⟩
      obtain ⟨hmem, hposition⟩ := Paging.mem_of_run_query hquery hrow
      exact Table.isValueRow_of_position? hmem hposition
  · -- the rows of all values, up to the limit
    obtain ⟨hids, rfl⟩ := Prod.mk.inj hfound
    obtain rfl := Except.ok.inj hids
    refine ⟨⟨_, rfl⟩, (nodup_matchedIds _).sublist (List.take_sublist _ _), fun id hid => ?_⟩
    refine document_live_of_matched h (fun row hrow => ?_) id (List.mem_of_mem_take hid)
    obtain ⟨value, -, hrow⟩ := List.mem_flatMap.1 hrow
    obtain ⟨hmem, hposition⟩ := (Table.mem_queryAll rfl).1 hrow
    exact Table.isValueRow_of_position? hmem hposition

theorem search_live (h : s.table.Sound t) (hname : s.table.name = c.documentsTable)
    {ids : List String} (hfound : ((foundIds c t criteria request).run s).1 = .ok ids) :
    (0 < s.table.maxBatchSize → (criteria.isComposite → c.hasGroup criteria.keys) →
      ((search c t criteria request).run s).1.isOk) ∧
    ∀ page, ((search c t criteria request).run s).1 = .ok page → page.items.map (·.id) = ids := by
  rcases hrun : (foundIds c t criteria request).run s with ⟨e | found, s'⟩ <;> rw [hrun] at hfound
  · cases hfound
  obtain rfl : found = ids := Except.ok.inj hfound
  obtain ⟨⟨n, hn⟩, hids, hlive⟩ := foundIds_live h hrun
  obtain ⟨hfinds, hall⟩ := Table.lookUp_live (c := c) (T := { s.table with batchCalls := n })
    (h.counted n).keeps hname hids hlive
  have hitems (hgroup : criteria.isComposite → c.hasGroup criteria.keys) :
      ((search c t criteria request).run s).1.map Page.items =
        ({ s.table with batchCalls := n }.lookUp c t found).1 := by
    rw [items_search hgroup, Action.run_bind, hrun, ← hn]
    simp only [run_findDocuments]
  constructor
  · intro hmax hgroup
    have hok := hfinds hmax
    rw [← hitems hgroup] at hok
    cases hanswer : ((search c t criteria request).run s).1 with
    | ok page => rfl
    | error e =>
      rw [hanswer] at hok
      cases hok
  · intro page hanswer
    have hlook := hitems (hasGroup_of_search hanswer)
    rw [hanswer] at hlook
    exact hall page.items hlook.symm

/-- In every store that requests of one tenant lead to, a partition of a document with a row in it
has the record of the document, live or soft-deleted. Of the documents that rows of attributes belong
to, and of those that a search has found, none is dropped when they are looked up. -/
theorem no_orphan_rows (c : Config) (name : String) (maxBatchSize : Nat) (clock : Clock)
    {requests : List Request} (hrequests : ∀ r ∈ requests, r.tenant = t) :
    let s := (run c (fresh name maxBatchSize clock) requests).2
    (∀ row ∈ s.table, ∀ id, row.address.partition = Partition.document t id →
      ∃ d, s.table.document? t id = some d ∧ d.tenant = t ∧ d.id = id) ∧
    (∀ row ∈ s.table, ∀ id,
      row.address.partition = SoftDelete.markKey t (Partition.document t id) →
        ∃ d, s.table.deletedDocument? t id = some d ∧ d.tenant = t ∧ d.id = id) ∧
    (name = c.documentsTable →
      (∀ rows, (∀ row ∈ rows, s.table.IsValueRow t row) →
        (0 < maxBatchSize → ((findDocuments c t (matchedIds rows)).run s).1.isOk) ∧
        ∀ documents, ((findDocuments c t (matchedIds rows)).run s).1 = .ok documents →
          documents.map (·.id) = matchedIds rows) ∧
      ∀ criteria request ids, ((foundIds c t criteria request).run s).1 = .ok ids →
        (0 < maxBatchSize → (criteria.isComposite → c.hasGroup criteria.keys) →
          ((search c t criteria request).run s).1.isOk) ∧
        ∀ page, ((search c t criteria request).run s).1 = .ok page →
          page.items.map (·.id) = ids) := by
  intro s
  have hsound : s.table.Sound t := sound_run hrequests (sound_fresh t name maxBatchSize clock)
  have hsettings : s.table.settings = (name, maxBatchSize, []) := settings_run c _ requests
  have hname : s.table.name = name := congrArg Prod.fst hsettings
  have hmax : s.table.maxBatchSize = maxBatchSize := congrArg (·.2.1) hsettings
  refine ⟨fun row hrow id hp => ?_, fun row hrow id hp => ?_, ?_⟩
  · obtain ⟨d, hd⟩ := Option.isSome_iff_exists.1 (hsound.owned row hrow id hp)
    exact ⟨d, hd, ((Table.document?_eq_some_iff hsound.keeps).1 hd).2⟩
  · obtain ⟨d, hd, ht, rfl⟩ := hsound.deletedOwned row hrow id hp
    exact ⟨d, Table.deletedDocument?_eq_some hd ht, ht, rfl⟩
  · rintro rfl
    rw [← hmax]
    refine ⟨fun rows hrows => ?_, fun criteria request ids hfound => ?_⟩
    · simp only [run_findDocuments]
      exact Table.lookUp_live hsound.keeps hname (nodup_matchedIds rows)
        (document_live_of_matched hsound hrows)
    · exact search_live hsound hname hfound

def memosShelved : List Request := memosFiled ++ [⟨.default, ⟨0⟩, .deleteDocument "p" true⟩]

theorem memosShelved_has_no_orphans :
    let s := (run {} (fresh "documents" 1 ⟨0⟩) memosShelved).2
    let memo (id kind : String) : Row := Attribute.row .default ⟨id, "kind", .text kind, "u", ⟨1, 0⟩⟩
    let found := ((foundIds {} .default ⟨[memos]⟩ {}).run s).1
    let answer := ((search {} .default ⟨[memos]⟩ {}).run s).1
    (∀ r ∈ memosShelved, r.tenant = .default) ∧
      (memo "q" "memo/c" ∈ s.table ∧ ∃ d, s.table.document? .default "q" = some d) ∧
      ((memo "p" "memo/b").marked .default ∈ s.table ∧
        ∃ d, s.table.deletedDocument? .default "p" = some d) ∧
      found = .ok ["q"] ∧ answer.isOk ∧
      ∀ page, answer = .ok page → page.items.map (·.id) = ["q"] := by
  intro s memo found answer
  have hrequests : ∀ r ∈ memosShelved, r.tenant = .default := by decide
  have hlive : memo "q" "memo/c" ∈ s.table := by decide +kernel
  have hdeleted : (memo "p" "memo/b").marked .default ∈ s.table := by decide +kernel
  have hfound : found = .ok ["q"] := by decide +kernel
  obtain ⟨hrecord, hshelved, hlook⟩ := no_orphan_rows {} "documents" 1 ⟨0⟩ hrequests
  obtain ⟨hok, hall⟩ := (hlook rfl).2 ⟨[memos]⟩ {} ["q"] hfound
  obtain ⟨d, hd, -⟩ := hrecord _ hlive "q" rfl
  obtain ⟨e, he, -⟩ := hshelved _ hdeleted "p" rfl
  exact ⟨hrequests, ⟨hlive, d, hd⟩, ⟨hdeleted, e, he⟩, hfound, hok (by decide) (by decide), hall⟩

end Store

end Cabinet
