import Cabinet.Proofs.Store.History
import Cabinet.Proofs.Store.Isolation
import Cabinet.Proofs.Store.Joining
import Cabinet.Proofs.Text.Padded

/-! The attributes of a document as a map from keys to values. Main statement: along requests that
keep the documents, what is found under a key is what was last set under it, each value once and in
order, and nothing once the key has been deleted. -/

namespace Cabinet

namespace Attribute

variable {values : List Attribute}

theorem arranged_eq {as : List Attribute}
    (hsorted : as.Pairwise fun a b => a.value.indexText < b.value.indexText)
    (hmem : ∀ a, a ∈ as ↔ a ∈ arranged values) : arranged values = as := by
  refine sortBy_eq_of_perm (fun a b hab => ?_) (fun a b c hac => ?_) ?_
    (hsorted.imp fun hab => decide_eq_true hab)
  · exact decide_eq_false (String.lt_asymm (of_decide_eq_true hab))
  · by_cases hab : a.value.indexText < b.value.indexText
    · exact .inl (decide_eq_true hab)
    · have hac := of_decide_eq_true hac
      refine .inr (decide_eq_true ?_)
      by_cases hba : b.value.indexText < a.value.indexText
      · exact String.lt_trans hba hac
      · rwa [← String.le_antisymm (String.not_lt.1 hba) (String.not_lt.1 hab)]
  · refine (List.perm_ext_iff_of_nodup ?_ ?_).2 fun a => ?_
    · exact (pairwise_firstsBy _ values.reverse).imp fun {a b} hne (he : a = b) => hne (he ▸ rfl)
    · exact hsorted.imp fun {a b} hlt (he : a = b) => String.lt_irrefl _ (he ▸ hlt)
    · rw [hmem, arranged, mem_sortBy]

end Attribute

namespace Table

open Attribute

variable {t : Tenant} {T T' : Table} {c : Config} {id m key k : String} {a : Attribute}

theorem attributeRows_eq (h : T.Keeps t) :
    T.attributeRows t id key = (T.attributesOf t id key).map (·.row t) := by
  have hrow : ∀ row ∈ T.attributeRows t id key, row.attribute?.map (·.row t) = some row := by
    intro row hmem
    obtain ⟨a, -, -, -, rfl⟩ := (mem_attributeRows_iff h).1 hmem
    rfl
  rw [attributesOf, List.map_filterMap, List.filterMap_congr hrow, List.filterMap_some]

theorem pairwise_attributesOf (h : T.Keeps t) (id key : String) :
    (T.attributesOf t id key).Pairwise fun a b => a.value.indexText < b.value.indexText := by
  have hrows : (T.attributeRows t id key).Pairwise fun a b => a.address.sort < b.address.sort :=
    (T.rowsFrom_pairwise _ _).filter _
  rw [attributeRows_eq h, List.pairwise_map] at hrows
  refine hrows.imp_of_mem fun {a b} ha hb hlt => ?_
  obtain ⟨-, -, hkey⟩ := (mem_attributesOf h).1 ha
  obtain ⟨-, -, hkey'⟩ := (mem_attributesOf h).1 hb
  simp only [Attribute.row, Row.address, Attribute.rowKey, hkey, hkey'] at hlt
  exact Text.lt_of_append_lt_append hlt

def plainAttributes (T : Table) (t : Tenant) (id : String) : List Attribute :=
  ((T.rowsFrom (Partition.document t id) SortKey.attributes).filterMap Row.attribute?).filter
    fun a => !a.value.isComposite

theorem mem_plainAttributes (h : T.Keeps t) : a ∈ T.plainAttributes t id ↔
    a.row t ∈ T ∧ a.documentId = id ∧ a.value.isComposite = false := by
  unfold plainAttributes
  rw [List.mem_filter, List.mem_filterMap, Bool.not_eq_true', ← and_assoc]
  refine and_congr_left fun _ => ?_
  constructor
  · rintro ⟨row, hrow, ha⟩
    obtain ⟨hmem, hp, -⟩ := mem_rowsFrom.1 hrow
    obtain rfl := (h.isLive_of_document hmem hp).eq_attributeRow ha
    exact ⟨hmem, Partition.document_injective hp⟩
  · rintro ⟨hmem, rfl⟩
    refine ⟨a.row t, mem_rowsFrom.2 ⟨hmem, rfl, ?_⟩, rfl⟩
    simp only [Attribute.row, Row.address, Attribute.rowKey, SortKey.attributeKey,
      String.append_assoc, Text.beginsWith_append]

theorem nodup_plainAttributes (h : T.Keeps t) (id : String) : (T.plainAttributes t id).Nodup := by
  refine List.Nodup.filter _ (List.pairwise_filterMap.2 ?_)
  have hrows : (T.rowsFrom (Partition.document t id) SortKey.attributes).Nodup := queryAll_nodup rfl
  refine hrows.imp_of_mem fun {r r'} hr hr' hne a ha b hb hab => hne ?_
  obtain ⟨hmem, hp, -⟩ := mem_rowsFrom.1 hr
  obtain ⟨hmem', hp', -⟩ := mem_rowsFrom.1 hr'
  rw [(h.isLive_of_document hmem hp).eq_attributeRow ha,
    (h.isLive_of_document hmem' hp').eq_attributeRow hb, hab]

theorem mem_attributesOf_refreshComposites (h : T.Legible t) (hc : c.Valid)
    (hkey : Text.mentions compositeDelimiter k = false) (id : String) (keys : List String) :
    a ∈ (T.refreshComposites c t id keys).attributesOf t m k ↔ a ∈ T.attributesOf t m k := by
  refine mem_attributesOf_refreshGroups_of_ne h fun g hg he => ?_
  obtain ⟨_, -, hg⟩ := List.mem_flatMap.1 (mem_firsts.1 hg)
  have hname := mentions_compositeName (Config.two_le_length hc (List.mem_filter.1 hg).1)
  rw [← he.2, hkey] at hname
  cases hname

def entriesFor (id key : String) (attributes : List Attribute) : List Attribute :=
  (attributes.filter (·.key = key)).map fun a => { a with documentId := id }

theorem mem_attributesOf_attributesSet (h : T.Legible t) (hc : c.Valid)
    (hkey : Text.mentions compositeDelimiter k = false) {attributes : List Attribute}
    (hnew : ∀ a ∈ attributes, a.IsPlain) :
    a ∈ (T.attributesSet c t id attributes).attributesOf t m k ↔
      if m = id ∧ ∃ a ∈ attributes, a.key = k then a ∈ arranged (entriesFor id k attributes)
      else a ∈ T.attributesOf t m k := by
  have hmine : ∀ a ∈ attributes.map fun a => { a with documentId := id },
      a.documentId = id ∧ a.IsPlain := by
    intro a ha
    obtain ⟨b, hb, rfl⟩ := List.mem_map.1 ha
    exact ⟨rfl, hnew b hb⟩
  have hnamed : k ∈ attributeKeys (attributes.map fun a => { a with documentId := id }) ↔
      ∃ a ∈ attributes, a.key = k := by
    simp [attributeKeys]
  have hfilter : (attributes.map fun a => { a with documentId := id }).filter (·.key = k) =
      entriesFor id k attributes := List.filter_map
  have hset := h.setAttributes hmine
  refine (mem_attributesOf_refreshComposites hset hc hkey id _).trans ?_
  rw [mem_attributesOf_setAttributes h hmine, hfilter]
  simp only [hnamed]

theorem mem_attributesOf_attributeDeleted (h : T.Legible t) (hc : c.Valid)
    (hkey : Text.mentions compositeDelimiter k = false) :
    a ∈ (T.attributeDeleted c t id key).attributesOf t m k ↔
      if m = id ∧ k = key then a ∈ arranged [] else a ∈ T.attributesOf t m k := by
  rw [attributeDeleted_eq]
  split
  · refine (mem_attributesOf_refreshComposites (h.setAttribute (areFor_nil id key)) hc hkey id
      _).trans ?_
    rw [mem_attributesOf_setAttribute h (areFor_nil id key)]
  · rename_i hrows
    split
    · rename_i hown
      obtain ⟨rfl, rfl⟩ := hown
      rw [attributesOf, not_not.1 hrows]
      rfl
    · rfl

theorem mem_attributesOf_congr (h : T.Keeps t) (h' : T'.Keeps t)
    (hrow : ∀ a : Attribute, a.row t ∈ T' ↔ a.row t ∈ T) :
    a ∈ T'.attributesOf t id key ↔ a ∈ T.attributesOf t id key := by
  rw [mem_attributesOf h, mem_attributesOf h', hrow]

end Table

namespace Store

open Attribute

variable {tenants : Tenant → Prop} {t : Tenant} {c : Config} {requests : List Request}
  {s : Store} {r : Request} {id key : String} {entries : List Attribute}

/-- What there is under an attribute key of a document once tenant `t` has been answered: the entries
of a setting of the key, nothing after a deletion of it, and otherwise what there was. -/
def entriesAfter (t : Tenant) (id key : String) (entries : List Attribute) :
    Request × Except Error Answer → List Attribute
  | (⟨u, _, .setAttributes m attributes⟩, .ok _) =>
    if u = t ∧ id = m ∧ ∃ a ∈ attributes, a.key = key then Table.entriesFor m key attributes
    else entries
  | (⟨u, _, .deleteAttribute m k⟩, .ok _) => if u = t ∧ id = m ∧ key = k then [] else entries
  | _ => entries

def entriesOf (t : Tenant) (id key : String) (exchanges : List (Request × Except Error Answer)) :
    List Attribute :=
  exchanges.foldl (entriesAfter t id key) []

/-- What is found under the key is the entries. -/
def Reflects (t : Tenant) (id key : String) (s : Store) (entries : List Attribute) : Prop :=
  ∀ a, a ∈ s.table.attributesOf t id key ↔ a ∈ arranged entries

theorem entriesAfter_of_ne (hother : r.tenant ≠ t) (answer : Except Error Answer) :
    entriesAfter t id key entries (r, answer) = entries := by
  obtain ⟨u, clock, op⟩ := r
  cases op <;> cases answer <;> simp_all [entriesAfter]

theorem Reflects.step_of_kinds (h : s.Reflects t id key entries) (hkeeps : s.table.Keeps t)
    (hr : r.tenant = t) (hop : r.operation.keepsDocuments) (hkind : .attribute ∉ r.operation.kinds) :
    (s.step c r).2.Reflects t id key entries := by
  obtain ⟨calls, hT⟩ := table_step c s r
  subst hr
  have hedits := Operation.edits_kinds hkeeps c hop
  have hP (row : Row) (hrow : row.IsLive r.tenant ∧ row.record.kind ∈ r.operation.kinds) :
      row.IsLive r.tenant ∧ row.record.kind ≠ .attribute :=
    ⟨hrow.1, fun he => hkind (he ▸ hrow.2)⟩
  have hkeeps' := hkeeps.of_edits (fun row hrow => .inl hrow.1) hedits
  intro a
  rw [hT]
  exact (Table.mem_attributesOf_congr hkeeps hkeeps' fun a => hedits.attributeRow_iff hP a).trans (h a)

theorem Reflects.step_setAttributes (h : s.Reflects t id key entries) (hs : s.table.Legible t)
    (hc : c.Valid) (hkey : Text.mentions compositeDelimiter key = false) {clock : Clock} {m : String}
    {attributes : List Attribute} (hplain : ∀ a ∈ attributes, a.IsPlain) :
    let r : Request := ⟨t, clock, .setAttributes m attributes⟩
    (s.step c r).2.Reflects t id key (entriesAfter t id key entries (r, (s.step c r).1)) := by
  intro r a
  cases hfault : s.table.metadataFault? t m (attributes.flatMap Attribute.issues) with
  | some e =>
    have hstep : s.step c r = (.error e, { s with clock }) := by
      simp only [r, step, Operation.perform, Action.run_bind, run_setAttributes, hfault]
    rw [hstep]
    exact h a
  | none =>
    have hstep : s.step c r =
        (.ok .done, { s with clock, table := s.table.attributesSet c t m attributes }) := by
      simp only [r, step, Operation.perform, Action.run_bind, run_setAttributes, hfault]
      rfl
    rw [hstep]
    refine (Table.mem_attributesOf_attributesSet hs hc hkey hplain).trans ?_
    simp only [entriesAfter, r, true_and]
    split
    · rfl
    · exact h a

theorem Reflects.step_deleteAttribute (h : s.Reflects t id key entries) (hs : s.table.Legible t)
    (hc : c.Valid) (hkey : Text.mentions compositeDelimiter key = false) {clock : Clock}
    {m k : String} :
    let r : Request := ⟨t, clock, .deleteAttribute m k⟩
    (s.step c r).2.Reflects t id key (entriesAfter t id key entries (r, (s.step c r).1)) := by
  have hstep : s.step c ⟨t, clock, .deleteAttribute m k⟩ =
      (.ok (.count (s.table.attributeRows t m k).length),
        { s with clock, table := s.table.attributeDeleted c t m k }) := by
    simp only [step, Operation.perform, Action.run_bind, run_deleteAttribute]
    rfl
  intro r a
  rw [hstep]
  refine (Table.mem_attributesOf_attributeDeleted hs hc hkey).trans ?_
  simp only [entriesAfter, r, true_and]
  split
  · rfl
  · exact h a

theorem Reflects.step (h : s.Reflects t id key entries) (hs : s.table.LegibleTo tenants)
    (hc : c.Valid) (hapart : ∀ t u, tenants t → tenants u → u ≠ t → u.Apart t) (ht : tenants t)
    (hkey : Text.mentions compositeDelimiter key = false) (hr : tenants r.tenant)
    (hplain : r.operation.SetsPlain) (hop : r.tenant = t → r.operation.keepsDocuments) :
    (s.step c r).2.Reflects t id key (entriesAfter t id key entries (r, (s.step c r).1)) := by
  have hlegible := hs.legible hapart t ht
  by_cases hmine : r.tenant = t
  · obtain ⟨u, clock, op⟩ := r
    obtain rfl : u = t := hmine
    have aside (hkind : .attribute ∉ op.kinds) (hsame : ∀ answer,
        entriesAfter u id key entries (⟨u, clock, op⟩, answer) = entries) :
        (s.step c ⟨u, clock, op⟩).2.Reflects u id key
          (entriesAfter u id key entries (⟨u, clock, op⟩, (s.step c ⟨u, clock, op⟩).1)) :=
      (hsame _).symm ▸ h.step_of_kinds hlegible.keeps rfl (hop rfl) hkind
    cases op with
    | setAttributes m attributes => exact h.step_setAttributes hlegible hc hkey hplain
    | deleteAttribute m k => exact h.step_deleteAttribute hlegible hc hkey
    | _ => exact aside (by simp [Operation.kinds]) fun _ => rfl
  · rw [entriesAfter_of_ne hmine]
    obtain ⟨calls, hT⟩ := table_step c s r
    have hedits := Operation.edits_effect (hs.legible hapart _ hr).keeps c r.operation
    have hother := hapart t _ ht hr hmine
    intro a
    rw [hT]
    exact (Table.mem_attributesOf_congr hlegible.keeps
      (hlegible.keeps.of_edits_apart hother hedits)
      fun a => hedits.mem_iff_of_apart hother (.inl (.value a))).trans (h a)

def keysSet (requests : List Request) : List String :=
  requests.flatMap fun r =>
    match r.operation with
    | .setAttributes _ attributes => attributes.map (·.key)
    | _ => []

theorem mem_keysSet (c : Config) (s : Store)
    (hentries : entriesOf t id key (requests.zip (run c s requests).1) ≠ []) :
    key ∈ keysSet requests := by
  suffices h : entriesOf t id key (requests.zip (run c s requests).1) ≠ [] →
      key ∈ keysSet requests from h hentries
  refine run_foldl (I := fun _ entries => entries ≠ [] → key ∈ keysSet requests)
    (fun r hr s entries hnamed hnew => ?_) fun hnil => absurd rfl hnil
  obtain ⟨u, clock, op⟩ := r
  generalize (s.step c ⟨u, clock, op⟩).1 = answer at hnew
  cases op with
  | setAttributes m attributes =>
    cases answer with
    | error e => exact hnamed hnew
    | ok answer =>
      simp only [entriesAfter] at hnew
      split at hnew
      · rename_i hset
        obtain ⟨-, -, a, ha, rfl⟩ := hset
        exact List.mem_flatMap.2 ⟨_, hr, List.mem_map_of_mem ha⟩
      · exact hnamed hnew
  | deleteAttribute m k =>
    cases answer with
    | error e => exact hnamed hnew
    | ok answer =>
      simp only [entriesAfter] at hnew
      split at hnew
      · exact absurd rfl hnew
      · exact hnamed hnew
  | _ => exact hnamed hnew

def namedKeys (requests : List Request) : List String :=
  (firsts (keysSet requests)).filter fun key => !Text.mentions compositeDelimiter key

theorem mem_namedKeys : key ∈ namedKeys requests ↔
    key ∈ keysSet requests ∧ Text.mentions compositeDelimiter key = false := by
  rw [namedKeys, List.mem_filter, mem_firsts, Bool.not_eq_true']

theorem Reflects.attributesOf_eq (h : s.Reflects t id key entries) (hkeeps : s.table.Keeps t) :
    s.table.attributesOf t id key = arranged entries :=
  (arranged_eq (Table.pairwise_attributesOf hkeeps id key) h).symm

theorem perm_plainAttributes {T : Table} (h : T.Keeps t) (hnamed : T.Named) {keys : List String}
    (hnodup : keys.Nodup) (hplain : ∀ key ∈ keys, Text.mentions compositeDelimiter key = false)
    {found : String → List Attribute}
    (hfound : ∀ key, Text.mentions compositeDelimiter key = false →
      T.attributesOf t id key = found key)
    (hkeys : ∀ key, Text.mentions compositeDelimiter key = false → found key ≠ [] → key ∈ keys) :
    (T.plainAttributes t id).Perm (keys.flatMap found) := by
  have hmem {key : String} {a : Attribute} (hkey : Text.mentions compositeDelimiter key = false) :
      a ∈ found key ↔ a.row t ∈ T ∧ a.documentId = id ∧ a.key = key := by
    rw [← hfound key hkey, Table.mem_attributesOf h]
  have hcomposite {a : Attribute} (ha : a.row t ∈ T) :
      a.value.isComposite = Text.mentions compositeDelimiter a.key := hnamed _ ha a rfl
  refine (List.perm_ext_iff_of_nodup (Table.nodup_plainAttributes h id) ?_).2 fun a => ?_
  · refine List.nodup_flatMap.2 ⟨fun key hkey => ?_, hnodup.imp_of_mem fun hk hk' hne a ha ha' => ?_⟩
    · rw [← hfound key (hplain key hkey)]
      exact (Table.pairwise_attributesOf h id key).imp fun {a b} hlt (he : a = b) =>
        String.lt_irrefl _ (he ▸ hlt)
    · exact hne (((hmem (hplain _ hk)).1 ha).2.2.symm.trans ((hmem (hplain _ hk')).1 ha').2.2)
  · rw [Table.mem_plainAttributes h, List.mem_flatMap]
    constructor
    · rintro ⟨hrow, hid, hvalue⟩
      rw [hcomposite hrow] at hvalue
      have ha : a ∈ found a.key := (hmem hvalue).2 ⟨hrow, hid, rfl⟩
      exact ⟨a.key, hkeys a.key hvalue (List.ne_nil_of_mem ha), ha⟩
    · rintro ⟨key, hkey, ha⟩
      obtain ⟨hrow, hid, rfl⟩ := (hmem (hplain _ hkey)).1 ha
      exact ⟨hrow, hid, (hcomposite hrow).trans (hplain _ hkey)⟩

/-- Along the requests of tenants side by side, which set attributes with plain keys, and of which
those of tenant `t` keep the documents: under a key without the delimiter of groups is found what the
last successful setting of the key has brought, of each value the last entry, in order of the values,
and nothing once the key has been deleted. All attributes of a document are those of the keys that
were named, and a deletion tells how many there were. -/
theorem attributes_form_map (hc : c.Valid) (name : String) (maxBatchSize : Nat) (clock : Clock)
    (hapart : ∀ t u, tenants t → tenants u → u ≠ t → u.Apart t) (ht : tenants t)
    (hrequests : ∀ r ∈ requests, tenants r.tenant ∧ r.operation.SetsPlain ∧
      (r.tenant = t → r.operation.keepsDocuments)) (id : String) (now : Clock) :
    let s := (run c (fresh name maxBatchSize clock) requests).2
    let exchanges := requests.zip (run c (fresh name maxBatchSize clock) requests).1
    let ask op := (s.step c ⟨t, now, op⟩).1
    (∀ key, Text.mentions compositeDelimiter key = false →
      ask (.findAttribute id key) = .ok (.attributes (arranged (entriesOf t id key exchanges)))) ∧
    (∃ as, ask (.findAttributes id) = .ok (.attributes as) ∧
      as.Perm ((namedKeys requests).flatMap fun key => arranged (entriesOf t id key exchanges))) ∧
    ∀ key, ∃ as, ask (.findAttribute id key) = .ok (.attributes as) ∧
      ask (.deleteAttribute id key) = .ok (.count as.length) := by
  intro s exchanges ask
  have hreflects (key : String) (hkey : Text.mentions compositeDelimiter key = false) :
      s.table.LegibleTo tenants ∧ s.Reflects t id key (entriesOf t id key exchanges) := by
    refine run_foldl (I := fun s entries => s.table.LegibleTo tenants ∧ s.Reflects t id key entries)
      (fun r hr s entries hs => ?_) ⟨legibleTo_fresh name maxBatchSize clock, fun a => ?_⟩
    · obtain ⟨hu, hplain, hop⟩ := hrequests r hr
      refine ⟨?_, hs.2.step hs.1 hc hapart ht hkey hu hplain hop⟩
      obtain ⟨calls, hT⟩ := table_step c s r
      rw [hT]
      exact hs.1.effect hapart hu hplain calls
    · have hkeeps : (fresh name maxBatchSize clock).table.Keeps t :=
        ((legibleTo_fresh name maxBatchSize clock).legible hapart t ht).keeps
      rw [Table.mem_attributesOf hkeeps]
      exact iff_of_false (fun h => not_mem_fresh name maxBatchSize clock _ h.1) List.not_mem_nil
  have hkeeps : s.table.Keeps t :=
    (legible_run hapart c name maxBatchSize clock
      (fun r hr => ⟨(hrequests r hr).1, (hrequests r hr).2.1⟩) ht).keeps
  have hfound (key : String) (hkey : Text.mentions compositeDelimiter key = false) :
      s.table.attributesOf t id key = arranged (entriesOf t id key exchanges) :=
    (hreflects key hkey).2.attributesOf_eq hkeeps
  refine ⟨fun key hkey => ?_, ⟨s.table.plainAttributes t id, rfl, ?_⟩, fun key => ?_⟩
  · rw [← hfound key hkey]
    rfl
  · have hnamed : s.table.Named := named_run hc hapart (fun r hr => (hrequests r hr).1)
      (filedBy_fresh name maxBatchSize clock tenants) (named_fresh name maxBatchSize clock)
    exact perm_plainAttributes hkeeps hnamed ((nodup_firsts _).filter _)
      (fun key hkey => (mem_namedKeys.1 hkey).2) hfound fun key hkey hne =>
        mem_namedKeys.2 ⟨mem_keysSet c _ fun hnil => hne (by rw [hnil]; rfl), hkey⟩
  · refine ⟨s.table.attributesOf t id key, rfl, ?_⟩
    have hlength : (s.table.attributeRows t id key).length =
        (s.table.attributesOf t id key).length := by
      rw [Table.attributeRows_eq hkeeps, List.length_map]
    rw [← hlength]
    simp only [ask, step, Operation.perform, Action.run_bind, run_deleteAttribute]
    rfl

def yearsGiven : List Request :=
  let document : Document :=
    { id := "p", userId := "u", inserted := ⟨1704067200, 0⟩, modified := ⟨1704067200, 0⟩ }
  let valued (key value userId : String) : Attribute :=
    ⟨"", key, .text value, userId, ⟨1704067200, 0⟩⟩
  let north (op : Operation) : Request := ⟨.site "north", ⟨0⟩, op⟩
  let south (op : Operation) : Request := ⟨.site "south", ⟨0⟩, op⟩
  [north (.saveDocument document), south (.saveDocument document),
    north (.setAttributes "p" [valued "year" "2024" "u", valued "category" "memo" "u",
      valued "year" "2023" "u", valued "year" "2024" "v"]),
    south (.setAttributes "p" [valued "year" "1999" "u"]),
    north (.deleteAttribute "p" "category"), south (.deleteDocument "p" false),
    north (.setAttributes "p" [valued "category::year" "memo" "u"])]

theorem yearsGiven_form_map : dated.Valid ∧
    (∀ r ∈ yearsGiven, (r.tenant = .site "north" ∨ r.tenant = .site "south") ∧
      r.operation.SetsPlain ∧ (r.tenant = .site "north" → r.operation.keepsDocuments)) ∧
    let s := (run dated (fresh "documents" 100 ⟨0⟩) yearsGiven).2
    let ask op := (s.step dated ⟨.site "north", ⟨0⟩, op⟩).1
    ask (.findAttribute "p" "year") = .ok (.attributes
      [⟨"p", "year", .text "2023", "u", ⟨1704067200, 0⟩⟩,
        ⟨"p", "year", .text "2024", "v", ⟨1704067200, 0⟩⟩]) ∧
      ask (.findAttribute "p" "category") = .ok (.attributes []) ∧
      (∃ as, ask (.findAttributes "p") = .ok (.attributes as) ∧ as.length = 2) ∧
      ∃ as, ask (.findAttribute "p" "year") = .ok (.attributes as) ∧
        ask (.deleteAttribute "p" "year") = .ok (.count as.length) := by
  have hvalid : dated.Valid := by decide
  have hrequests : ∀ r ∈ yearsGiven, (r.tenant = .site "north" ∨ r.tenant = .site "south") ∧
      r.operation.SetsPlain ∧ (r.tenant = .site "north" → r.operation.keepsDocuments) := by
    simp [yearsGiven, Operation.SetsPlain, IsPlain, Operation.keepsDocuments]
  obtain ⟨hfind, ⟨as, hall, hperm⟩, hdelete⟩ := attributes_form_map hvalid "documents" 100 ⟨0⟩
    (Tenant.apart_of_sites (by decide) (by decide) (by decide)) (.inl rfl) hrequests "p" ⟨0⟩
  refine ⟨hvalid, hrequests, (hfind "year" (by decide)).trans ?_,
    (hfind "category" (by decide)).trans ?_, ⟨as, hall, hperm.length_eq.trans ?_⟩, hdelete "year"⟩
  · decide +kernel
  · decide +kernel
  · decide +kernel

end Store

end Cabinet
