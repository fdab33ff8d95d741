import Cabinet.Proofs.Store.Finding
import Cabinet.Proofs.Store.Navigation
import Cabinet.Proofs.Store.Values

/-! Searching for documents under one condition on the values of an attribute. Main statements: on
whatever page a document is found, it has a value that meets the condition, and a first page has a
document if there is such a value. -/

namespace Cabinet

def Query.matching (t : Tenant) (key : String) (condition : Condition) : Query where
  index := .first
  partition := Partition.attributeKey t key
  condition := some condition

namespace Store

variable {c : Config} {t : Tenant} {criteria : Criteria} {condition : Condition} {s : Store}
  {T : Table} {clock : Clock} {request : PageRequest} {page : Page Document} {key id : String}

theorem mem_matchedIds {rows : List Row} :
    id ∈ matchedIds rows ↔ ∃ row ∈ rows, ∃ a, row.attribute? = some a ∧ a.documentId = id := by
  simp only [matchedIds, mem_firsts, List.mem_map, List.mem_filterMap]
  constructor
  · rintro ⟨a, ⟨row, hrow, ha⟩, hid⟩
    exact ⟨row, hrow, a, ha, hid⟩
  · rintro ⟨row, hrow, a, ha, hid⟩
    exact ⟨a, ⟨row, hrow, ha⟩, hid⟩

theorem isSome_position?_matching (h : T.Keeps t) {row : Row} (hrow : row ∈ T) :
    ((Query.matching t key condition).position? row).isSome ↔
      ∃ a : Attribute, row = a.row t ∧ a.key = key ∧ condition.holds a.value.indexText := by
  rw [Table.isSome_position?]
  constructor
  · rintro ⟨⟨partition, text⟩, hentry, hpartition, htext⟩
    obtain rfl : partition = Partition.attributeKey t key := hpartition
    obtain ⟨a, rfl, hkey, rfl⟩ :=
      (h.isLive hrow hentry Partition.isLive_attributeKey).eq_value hentry
    exact ⟨a, rfl, hkey, htext⟩
  · rintro ⟨a, rfl, rfl, htext⟩
    exact ⟨⟨Partition.attributeKey t a.key, a.value.indexText⟩, rfl, rfl, htext⟩

theorem exists_text_of_search (h : s.table.Keeps t) (hplan : criteria.compile.plan = .single condition)
    (hgroup : criteria.isComposite → c.hasGroup criteria.keys)
    (hanswer : (s.step c ⟨t, clock, .search criteria request⟩).1 = .ok (.documentPage page)) :
    ∀ d ∈ page.items, ∃ v ∈ s.table.indexTexts t d.id criteria.compile.key, condition.holds v := by
  obtain ⟨rows, s', hquery, hanswer⟩ :=
    (Operation.Pages.search (t := t) request hplan hgroup).exists_page hanswer
  cases hfound : (s'.table.lookUp c t (matchedIds rows.items)).1 with
  | error e =>
    rw [hfound] at hanswer
    cases hanswer
  | ok documents =>
    rw [hfound] at hanswer
    obtain rfl : rows.withItems documents = page :=
      Answer.documentPage.inj (Except.ok.inj hanswer)
    intro d hd
    obtain ⟨row, hrow, a, ha, hid⟩ := mem_matchedIds.1 (Table.id_mem_of_lookUp hfound d hd)
    obtain ⟨hmem, hposition⟩ := Paging.mem_of_run_query hquery hrow
    obtain ⟨b, rfl, hkey, htext⟩ := (isSome_position?_matching h hmem).1 hposition
    obtain rfl : b = a := Option.some.inj ha
    exact ⟨_, (Table.mem_indexTexts h).2 ⟨b, hmem, hid, hkey, rfl⟩, htext⟩

theorem query_first_ne_nil {q : Query} (hstart : q.start = none) {n : Nat} (hn : 0 < n) {T : Table}
    {p : Position} {row : Row} (hrow : (p, row) ∈ q.ordered T.rows) :
    (T.query { q with limit := n, start := none }).rows ≠ [] := by
  have hrows : T.query { q with limit := n, start := none } = _ :=
    Paging.query_startAt (m := 0) hstart rfl (Nat.zero_le _) hn
  rw [hrows, List.drop_zero, ne_eq, List.take_eq_nil_iff]
  rintro (hzero | hnil)
  · omega
  · exact List.ne_nil_of_mem (List.mem_map_of_mem hrow) hnil

/-- A first page is not empty if there is a value that meets the condition and its document is live. -/
theorem exists_search (h : s.table.Keeps t) (hplan : criteria.compile.plan = .single condition)
    (hgroup : criteria.isComposite → c.hasGroup criteria.keys)
    (hname : s.table.name = c.documentsTable) (hmax : 0 < s.table.maxBatchSize) {v : String}
    (hv : v ∈ s.table.indexTexts t id criteria.compile.key) (hholds : condition.holds v)
    (clock : Clock) (limit : Option Int) :
    ∃ page, (s.step c ⟨t, clock, .search criteria { limit }⟩).1 = .ok (.documentPage page) ∧
      ∃ m, (∃ w ∈ s.table.indexTexts t m criteria.compile.key, condition.holds w) ∧
        ∀ d, s.table.document? t m = some d → d ∈ page.items := by
  let q : Query := .matching t criteria.compile.key condition
  let token : Token := { id := .issued s.issued, limit := Paging.clampLimit c limit }
  let found := Paging.rowsAt q token s.table
  -- the first page has a row
  obtain ⟨row, hrow⟩ : ∃ row, row ∈ found.rows := by
    obtain ⟨a, hmem, -, hkey, rfl⟩ := (Table.mem_indexTexts h).1 hv
    obtain ⟨p, hp⟩ := Option.isSome_iff_exists.1
      ((isSome_position?_matching h hmem).2 ⟨a, rfl, hkey, hholds⟩)
    have hordered : (p, a.row t) ∈ q.ordered s.table.rows :=
      Query.mem_ordered.2 ⟨Table.mem_toList.2 hmem, hp⟩
    exact List.exists_mem_of_ne_nil _
      (query_first_ne_nil rfl (Paging.clampLimit_pos c limit) hordered)
  obtain ⟨hmem, hposition⟩ := Paging.mem_of_mem_rowsAt hrow
  obtain ⟨a, rfl, hkey, htext⟩ := (isSome_position?_matching h hmem).1 hposition
  obtain ⟨calls, hstep⟩ := (Operation.Pages.search {} hplan hgroup).step_eq
    (Paging.run_resolve_first c limit { s with clock })
  have hanswer := congrArg Prod.fst hstep
  rw [Table.lookUp_eq h hname hmax] at hanswer
  refine ⟨_, hanswer, a.documentId,
    ⟨_, (Table.mem_indexTexts h).2 ⟨a, hmem, rfl, hkey, rfl⟩, htext⟩,
    fun d hd => List.mem_filterMap.2 ⟨a.documentId, mem_firsts.2 ?_, hd⟩⟩
  exact mem_matchedIds.2 ⟨a.row t, hrow, a, rfl, rfl⟩

end Store

end Cabinet
