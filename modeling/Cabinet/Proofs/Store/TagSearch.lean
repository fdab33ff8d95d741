import Cabinet.Proofs.Distinct
import Cabinet.Proofs.Store.PagingThrough
import Cabinet.Proofs.Store.SideBySide
import Cabinet.Proofs.Store.TagRestoration

/-! Searching for tags, page after page. Main statement: along a run the pages list exactly the
documents with a tag of the key, and with the value if one is given, as long as each restore puts rows
together in which the values of each tag have their rows. -/

namespace Cabinet

def Query.ofTag (t : Tenant) (key : String) : Option String → Query
  | some value => { index := .first, partition := Partition.tagValue t key value }
  | none => { index := .second, partition := Partition.tag t key }

def tagsOnly (page : Page Row) : Page Tag :=
  page.withItems (firstsBy Tag.documentId (page.items.filterMap Row.tag?))

theorem Operation.pages_searchTags (c : Config) (t : Tenant) (key : String) (value : Option String)
    (request : PageRequest) : Pages c t (.searchTags key value request) (.ofTag t key value)
      fun _ page => .ok (.tagPage (tagsOnly page)) := by
  cases value with
  | none => exact .tag key request
  | some value => exact .tagValue key value request

namespace Table

variable {t : Tenant} {T : Table} {row : Row} {id key : String} {value : Option String}

/-- A live document has a tag with the key, and with the value if one is given. -/
def HasTag (T : Table) (t : Tenant) (key : String) (value : Option String) (id : String) : Prop :=
  (T.document? t id).isSome ∧
    ∃ row ∈ T.tagRows t id key, ∃ g ∈ row.tag?, ∀ v ∈ value, v ∈ g.value.values

instance (T : Table) (t : Tenant) (key : String) (value : Option String) (id : String) :
    Decidable (T.HasTag t key value id) :=
  inferInstanceAs (Decidable ((T.document? t id).isSome ∧
    ∃ row ∈ T.tagRows t id key, ∃ g ∈ row.tag?, ∀ v ∈ value, v ∈ g.value.values))

theorem mem_queryAll_ofTag (h : T.TagLegible t) (hkey : '#' ∉ key.toList) :
    row ∈ T.queryAll (.ofTag t key value) ↔
      ∃ id, row ∈ T.tagRows t id key ∧ ∀ v ∈ value, row.tagText? = some v := by
  have hstart : (Query.ofTag t key value).start = none := by cases value <;> rfl
  rw [mem_queryAll hstart]
  have hposition (hmem : row ∈ T) : ((Query.ofTag t key value).position? row).isSome ↔
      ∃ g : Tag, row ∈ g.rows t ∧ g.key = key ∧ ∀ v ∈ value, row.tagText? = some v := by
    rw [isSome_position?]
    cases value with
    | none =>
      constructor
      · rintro ⟨⟨partition, text⟩, hentry, rfl, -⟩
        obtain ⟨g, hrow, hown⟩ :=
          (h.keeps.isLive hmem hentry Partition.isLive_tag).eq_tag hentry
        exact ⟨g, hrow, hown, nofun⟩
      · rintro ⟨g, hrow, rfl, -⟩
        obtain ⟨text, htext⟩ := Tag.second_of_mem_rows hrow
        exact ⟨_, htext, rfl, rfl⟩
    | some v =>
      constructor
      · rintro ⟨⟨partition, stamp⟩, hentry, rfl, -⟩
        obtain ⟨g, hrow, hread⟩ :=
          (h.keeps.isLive hmem hentry Partition.isLive_tagValue).eq_tagValue hkey hentry
        obtain ⟨hown, htext⟩ := hread (h.isPlain hmem hrow)
        exact ⟨g, hrow, hown, fun w hw => Option.some.inj hw ▸ htext⟩
      · rintro ⟨g, hrow, rfl, htext⟩
        obtain ⟨stamp, hfirst⟩ := Tag.first_of_tagText? hrow (htext v rfl)
        exact ⟨_, hfirst, rfl, rfl⟩
  constructor
  · rintro ⟨hmem, hp⟩
    obtain ⟨g, hrow, hown, htext⟩ := (hposition hmem).1 hp
    exact ⟨g.documentId, (mem_tagRows_iff h.keeps).2 ⟨hmem, g, hrow, rfl, hown⟩, htext⟩
  · rintro ⟨id, hrow, htext⟩
    obtain ⟨hmem, g, hrow, -, hown⟩ := (mem_tagRows_iff h.keeps).1 hrow
    exact ⟨hmem, (hposition hmem).2 ⟨g, hrow, hown, htext⟩⟩

theorem tag_of_mem_tagRows (h : T.Keeps t) (hrow : row ∈ T.tagRows t id key) :
    ∃ g : Tag, row.tag? = some g ∧ row ∈ g.rows t ∧ g.documentId = id ∧ g.key = key := by
  obtain ⟨-, g, hrows, hid, hkey⟩ := (mem_tagRows_iff h).1 hrow
  exact ⟨g, by rw [Row.tag?, Tag.record_of_mem_rows hrows], hrows, hid, hkey⟩

theorem SoundTo.isSome_document?_of_tag (h : T.SoundTo t) (hrow : row ∈ T.tagRows t id key) :
    (T.document? t id).isSome := by
  obtain ⟨hmem, g, hrows, rfl, -⟩ := (mem_tagRows_iff h.keeps).1 hrow
  obtain ⟨tail, -, hplace⟩ := Tag.address_of_mem_rows hrows
  exact h.owned hmem (.tag g hrows) (congrArg Address.partition hplace)

theorem hasTag_of_mem_queryAll (h : T.SoundTo t) (hl : T.TagLegible t) (hkey : '#' ∉ key.toList)
    (hrow : row ∈ T.queryAll (.ofTag t key value)) {g : Tag} (hg : row.tag? = some g) :
    g.key = key ∧ T.HasTag t key value g.documentId := by
  obtain ⟨id, hrow, htext⟩ := (mem_queryAll_ofTag hl hkey).1 hrow
  obtain ⟨g', hg', hrows, rfl, hown⟩ := tag_of_mem_tagRows hl.keeps hrow
  obtain rfl := Option.some.inj (hg.symm.trans hg')
  exact ⟨hown, h.isSome_document?_of_tag hrow, row, hrow, g, hg,
    fun v hv => Tag.mem_values_of_tagText? hrows (htext v hv)⟩

theorem exists_mem_queryAll (hl : T.TagLegible t) (hkey : '#' ∉ key.toList) (hshow : T.TagsShow t)
    (hhas : T.HasTag t key value id) :
    ∃ row ∈ T.queryAll (.ofTag t key value), ∃ g ∈ row.tag?, g.documentId = id := by
  obtain ⟨-, row, hrow, g, hg, hvalue⟩ := hhas
  obtain ⟨r, hr, htext⟩ : ∃ r ∈ T.tagRows t id key, ∀ v ∈ value, r.tagText? = some v := by
    cases value with
    | none => exact ⟨row, hrow, nofun⟩
    | some v =>
      obtain ⟨r, hr, htext⟩ := hshow id key row hrow g hg v (hvalue v rfl)
      exact ⟨r, hr, fun w hw => Option.some.inj hw ▸ htext⟩
  obtain ⟨g', hg', -, hid, -⟩ := tag_of_mem_tagRows hl.keeps hr
  exact ⟨r, (mem_queryAll_ofTag hl hkey).2 ⟨id, hr, htext⟩, g', hg', hid⟩

end Table

namespace Store

variable {c : Config} {tenants : Tenant → Prop} {t : Tenant} {requests : List Request} {s : Store}
  {key : String} {value : Option String}

/-- However it is paged, a search for tags that is followed while the table stays the same and no token
expires lists tags with the key, of documents that have one with the value; up to the last page all of
these documents are there, and the last page is reached. -/
def FindsTags (c : Config) (t : Tenant) (key : String) (value : Option String) (s : Store) : Prop :=
  ∀ (size : Option Int) (turns : List Turn),
    let answers := pageThrough c t (.searchTags key value {}) s { limit := size } turns
    Steady s.table.rows answers → Timely c turns →
      ∃ pages : List (Page Tag),
        answers.map (·.2) = pages.map (fun page => .ok (.tagPage page)) ∧
        (∀ g ∈ pages.flatMap Page.items, g.key = key ∧ s.table.HasTag t key value g.documentId) ∧
        (Page.Ends pages → ∀ id, s.table.HasTag t key value id →
          ∃ g ∈ pages.flatMap Page.items, g.documentId = id) ∧
        (s.table.rows.size < turns.length → Page.Ends pages)

theorem ends_tagsOnly (pages : List (Page Row)) :
    Page.Ends (pages.map tagsOnly) ↔ Page.Ends pages :=
  Page.ends_map fun _ => rfl

theorem searchTags_pages (hissued : s.HoldsIssued) {size : Option Int} {turns : List Turn}
    (hsteady : Steady s.table.rows
      (pageThrough c t (.searchTags key value {}) s { limit := size } turns))
    (htime : Timely c turns) :
    ∃ pages : List (Page Row),
      (pageThrough c t (.searchTags key value {}) s { limit := size } turns).map (·.2) =
        (pages.map tagsOnly).map (fun page => .ok (.tagPage page)) ∧
      Paging.Cuts (Paging.clampLimit c size) (s.table.queryAll (.ofTag t key value)) pages ∧
      (s.table.rows.size < turns.length → Page.Ends (pages.map tagsOnly)) := by
  have hstart : (Query.ofTag t key value).start = none := by cases value <;> rfl
  obtain ⟨pages, hpages, -, hcuts, hends⟩ := pageThrough_eq
    (Operation.pages_searchTags c t key value {}) (fun _ _ _ _ => ⟨_, rfl⟩) hissued hsteady htime
  refine ⟨pages.map (·.2), ?_, ?_, fun hturns => (ends_tagsOnly _).2 (hends hturns)⟩
  · rw [hpages, List.map_map, List.map_map, List.map_map]
    rfl
  · rw [Table.queryAll, Query.drain_eq, Query.remaining_of_start_none hstart]
    exact hcuts

theorem mem_flatMap_tagsOnly {pages : List (Page Row)} {g : Tag}
    (h : g ∈ (pages.map tagsOnly).flatMap Page.items) :
    ∃ row ∈ pages.flatMap Page.items, row.tag? = some g := by
  rw [List.flatMap_map] at h
  obtain ⟨page, hpage, hg⟩ := List.mem_flatMap.1 h
  obtain ⟨row, hrow, hg⟩ := List.mem_filterMap.1 (mem_of_mem_firstsBy hg)
  exact ⟨row, List.mem_flatMap.2 ⟨page, hpage, hrow⟩, hg⟩

theorem exists_mem_flatMap_tagsOnly {pages : List (Page Row)} {row : Row} {g : Tag}
    (h : row ∈ pages.flatMap Page.items) (hg : row.tag? = some g) :
    ∃ g' ∈ (pages.map tagsOnly).flatMap Page.items, g'.documentId = g.documentId := by
  obtain ⟨page, hpage, hrow⟩ := List.mem_flatMap.1 h
  obtain ⟨g', hg', hid⟩ := exists_mem_firstsBy Tag.documentId (List.mem_filterMap.2 ⟨row, hrow, hg⟩)
  rw [List.flatMap_map]
  exact ⟨g', List.mem_flatMap.2 ⟨page, hpage, hg'⟩, hid⟩

/-- All searches for plain keys are exact just when the values of all tags show. -/
theorem findsTags_iff (hc : c.Valid) (hissued : s.HoldsIssued) (h : s.table.SoundTo t)
    (hl : s.table.TagLegible t) :
    (∀ key value, '#' ∉ key.toList → s.FindsTags c t key value) ↔ s.table.TagsShow t := by
  constructor
  · intro hfinds id key row hrow g hg v hv
    obtain ⟨g', hg', hrows, -, rfl⟩ := Table.tag_of_mem_tagRows hl.keeps hrow
    have hkey : '#' ∉ g'.key.toList := hl.isPlain ((Table.mem_tagRows_iff hl.keeps).1 hrow).1 hrows
    obtain ⟨turns, hsteady, htime, hlength⟩ :=
      exists_turns hc (Operation.pages_searchTags c t g'.key (some v) {}) s { limit := none }
    obtain ⟨pages, hpages, -, hall, hends⟩ := hfinds g'.key (some v) hkey none turns hsteady htime
    obtain ⟨rows, hrowPages, hcuts, -⟩ := searchTags_pages hissued hsteady htime
    have hsame : pages = rows.map tagsOnly := by
      have hinjective : Function.Injective fun page : Page Tag =>
          (Except.ok (Answer.tagPage page) : Except Error Answer) :=
        fun _ _ he => Answer.tagPage.inj (Except.ok.inj he)
      exact hinjective.list_map (hpages.symm.trans hrowPages)
    subst hsame
    have hhas : s.table.HasTag t g'.key (some v) id :=
      ⟨h.isSome_document?_of_tag hrow, row, hrow, g, hg, fun w hw => Option.some.inj hw ▸ hv⟩
    -- the document is found by a row, and that row is one of its own
    obtain ⟨found, hfound, hfoundId⟩ := hall (hends hlength) id hhas
    obtain ⟨r, hr, hr'⟩ := mem_flatMap_tagsOnly hfound
    obtain ⟨m, hmem, htext⟩ := (Table.mem_queryAll_ofTag hl hkey).1 (hcuts.items_subset hr)
    obtain ⟨g'', hg'', -, hm, -⟩ := Table.tag_of_mem_tagRows hl.keeps hmem
    obtain rfl := Option.some.inj (hr'.symm.trans hg'')
    obtain rfl : m = id := hm.symm.trans hfoundId
    exact ⟨r, hmem, htext v rfl⟩
  · intro hshow key value hkey size turns answers hsteady htime
    obtain ⟨pages, hpages, hcuts, hends⟩ := searchTags_pages hissued hsteady htime
    refine ⟨pages.map tagsOnly, hpages, fun g hg => ?_, fun hlast id hhas => ?_, hends⟩
    · obtain ⟨row, hrow, hg⟩ := mem_flatMap_tagsOnly hg
      exact Table.hasTag_of_mem_queryAll h hl hkey (hcuts.items_subset hrow) hg
    · obtain ⟨row, hrow, g, hg, rfl⟩ := Table.exists_mem_queryAll hl hkey hshow hhas
      rw [← hcuts.items_eq ((ends_tagsOnly _).1 hlast)] at hrow
      exact exists_mem_flatMap_tagsOnly hrow hg

theorem tagLegible_run (hapart : ∀ t u, tenants t → tenants u → u ≠ t → u.Apart t) (c : Config)
    (name : String) (maxBatchSize : Nat) (clock : Clock)
    (hrequests : ∀ r ∈ requests, tenants r.tenant ∧ r.operation.TagsPlain) (ht : tenants t) :
    (run c (fresh name maxBatchSize clock) requests).2.table.TagLegible t := by
  have hall : (run c (fresh name maxBatchSize clock) requests).2.table.TagLegibleTo tenants := by
    refine run_induction (fun r hr T n hT => ?_) (tagLegibleTo_fresh name maxBatchSize clock)
    obtain ⟨hu, hplain⟩ := hrequests r hr
    exact hT.effect hapart hu hplain n
  exact hall.legible hapart t ht

/-- Along the requests of tenants side by side, which add tags with plain keys: each search of a tenant
for a plain key, with a value or without, lists the documents that have such a tag and no others, as
long as each request of the tenant keeps the values of tags together. -/
theorem tag_search_exact_iff (hc : c.Valid) (name : String) (maxBatchSize : Nat) (clock : Clock)
    (hapart : ∀ t u, tenants t → tenants u → u ≠ t → u.Apart t) (ht : tenants t)
    (hrequests : ∀ r ∈ requests, tenants r.tenant ∧ r.operation.TagsPlain) :
    (∀ n key value, '#' ∉ key.toList →
      (run c (fresh name maxBatchSize clock) (requests.take n)).2.FindsTags c t key value) ↔
      ∀ n, (hn : n < requests.length) → requests[n].tenant = t →
        requests[n].operation.KeepsTags t
          (run c (fresh name maxBatchSize clock) (requests.take n)).2.table := by
  have hpart (n : Nat) : ∀ r ∈ requests.take n, tenants r.tenant ∧ r.operation.TagsPlain :=
    fun r hr => hrequests r (List.mem_of_mem_take hr)
  have hlegible (n : Nat) {u : Tenant} (hu : tenants u) :
      (run c (fresh name maxBatchSize clock) (requests.take n)).2.table.TagLegible u :=
    tagLegible_run hapart c name maxBatchSize clock (hpart n) hu
  have hfinds (n : Nat) : (∀ key value, '#' ∉ key.toList →
      (run c (fresh name maxBatchSize clock) (requests.take n)).2.FindsTags c t key value) ↔
      (run c (fresh name maxBatchSize clock) (requests.take n)).2.table.TagsShow t :=
    findsTags_iff hc (holdsIssued_run (holdsIssued_fresh name maxBatchSize clock))
      (soundTo_run hapart (fun r hr => (hpart n r hr).1) ht (filedBy_fresh _ _ _ _)
        (soundTo_fresh _ _ _ _)) (hlegible n ht)
  rw [forall_congr' hfinds]
  refine run_take_iff (I := fun T => T.TagsShow t)
    (Q := fun r T => r.tenant = t → r.operation.KeepsTags t T) (fun id key row hrow => ?_)
    fun n hn hT => ?_
  · have hkeeps := ((tagLegibleTo_fresh name maxBatchSize clock).legible hapart t ht).keeps
    exact absurd ((Table.mem_tagRows_iff hkeeps).1 hrow).1 (not_mem_fresh name maxBatchSize clock row)
  obtain ⟨hr, hplain⟩ := hrequests _ (List.getElem_mem hn)
  obtain ⟨calls, hcalls⟩ := table_step c
    (run c (fresh name maxBatchSize clock) (requests.take n)).2 requests[n]
  rw [run_take_succ hn, hcalls]
  by_cases hmine : requests[n].tenant = t
  · rw [hmine, imp_iff_right rfl]
    exact Operation.tagsShow_effect_iff (hlegible n ht) hT c hplain
  · have hedits := (Operation.edits_effect (hlegible n hr).keeps c requests[n].operation).counted calls
    refine iff_of_true (fun id key => ?_) fun hself => absurd hself hmine
    refine (Row.showValues_congr_mem fun row => ?_).2 (hT id key)
    exact hedits.mem_tagRows_iff_of_apart (hlegible n ht).keeps (hapart t _ ht hr hmine)

def tagged (key : String) (value : TagValue) : Tag :=
  { documentId := "p", key, value, userId := "u", inserted := ⟨1704067200, 0⟩ }

def projectsRestored : List Request :=
  let document : Document :=
    { id := "p", userId := "u", inserted := ⟨1704067200, 0⟩, modified := ⟨1704067200, 0⟩ }
  let north (op : Operation) : Request := ⟨.site "north", ⟨0⟩, op⟩
  let south (op : Operation) : Request := ⟨.site "south", ⟨0⟩, op⟩
  [north (.saveDocument document),
    north (.addTags "p" [tagged "project" (.many ["a", "b"]), tagged "state" (.single "open#1")]),
    south (.saveDocument document),
    south (.addTags "p" [tagged "project" (.single "c")]),
    north (.deleteDocument "p" true),
    south (.deleteTag "p" "project"),
    north (.restoreDocument "p")]

theorem tag_search_exact_projectsRestored :
    (∀ r ∈ projectsRestored, (r.tenant = .site "north" ∨ r.tenant = .site "south") ∧
      r.operation.TagsPlain) ∧
    (∀ n key value, '#' ∉ key.toList →
      (run {} (fresh "documents" 100 ⟨0⟩) (projectsRestored.take n)).2.FindsTags {} (.site "north")
        key value) ∧
    (run {} (fresh "documents" 100 ⟨0⟩) projectsRestored).2.table.HasTag (.site "north") "project"
      (some "b") "p" := by
  have hrequests : ∀ r ∈ projectsRestored, (r.tenant = .site "north" ∨ r.tenant = .site "south") ∧
      r.operation.TagsPlain := by
    simp [projectsRestored, Operation.TagsPlain, Tag.IsPlain, tagged]
  refine ⟨hrequests, (tag_search_exact_iff (by decide) "documents" 100 ⟨0⟩
    (Tenant.apart_of_sites (by decide) (by decide) (by decide)) (.inl rfl) hrequests).2 ?_,
    by decide +kernel⟩
  intro n hn hmine
  match n with
  | 0 | 1 | 2 | 3 | 4 | 5 => trivial
  | 6 =>
    intro _
    show ∀ m ∈ _, _
    decide +kernel

def projectsMixed : List Request :=
  let document : Document :=
    { id := "p", userId := "u", inserted := ⟨1704067200, 0⟩, modified := ⟨1704067200, 0⟩ }
  let own (op : Operation) : Request := ⟨.default, ⟨0⟩, op⟩
  [own (.saveDocument document), own (.addTags "p" [tagged "project" (.many ["a", "b"])]),
    own (.deleteDocument "p" true),
    own (.saveDocument document), own (.addTags "p" [tagged "project" (.many ["c"])]),
    own (.deleteDocument "p" true), own (.restoreDocument "p")]

/-- A tag with the sign between parts in its key is found under another key and value, and a value of
a stored tag is not found once the rows of two tags are mixed. -/
theorem tag_search_inexact :
    let filed := (run {} (fresh "documents" 100 ⟨0⟩) (projectsMixed.take 1)).2
    let named := (filed.step {} ⟨.default, ⟨0⟩, .addTags "p" [tagged "a#b" (.single "c")]⟩).2
    let mixed := (run {} (fresh "documents" 100 ⟨0⟩) projectsMixed).2
    let ask (s : Store) key value := (s.step {} ⟨.default, ⟨0⟩, .searchTags key (some value) {}⟩).1
    (ask named "a" "b#c" = .ok (.tagPage { items := [tagged "a#b" (.single "c")] }) ∧
      ¬named.table.HasTag .default "a" (some "b#c") "p") ∧
    ask mixed "project" "a" = .ok (.tagPage { items := [] }) ∧
      mixed.table.HasTag .default "project" (some "a") "p" := by
  decide +kernel

end Store

end Cabinet
