import Cabinet.Proofs.Store.Soundness

/-! The keys under which rows stand, on the table and on both indexes. Main statement: whatever
requests a tenant makes, each row has a key of its record, marked if it is soft-deleted, and a
composite attribute is told by its name. -/

namespace Cabinet

/-- The keys under which the rows of a record stand; a document of another tenant has none. -/
def Record.rowKeys (t : Tenant) : Record → List RowKey
  | .document d => if d.tenant = t then [d.liveKey, d.versionKey d.currentVersion] else []
  | .tag g => g.rowKeys t
  | .attribute a => [a.rowKey t]
  | .folderNode n => [n.rowKey t]

namespace Row

variable {t : Tenant} {row : Row}

theorem IsLive.key_mem (h : row.IsLive t) : row.key ∈ row.record.rowKeys t := by
  cases h with
  | document d h => simp [Record.rowKeys, Document.liveRow, h]
  | version d h => simp [Record.rowKeys, Document.archivedRow, h]
  | tag tag h =>
    obtain ⟨key, hkey, rfl⟩ := List.mem_map.1 h
    exact hkey
  | value a => exact List.mem_singleton_self _
  | folder parents name h => exact List.mem_singleton_self _
  | leaf id parents name h => exact List.mem_singleton_self _

theorem IsFiled.exists_key (h : row.IsFiled t) :
    ∃ k ∈ row.record.rowKeys t, row.key = k ∨ row.key = SoftDelete.mark t k := by
  rcases h with hlive | hdeleted
  · exact ⟨row.key, hlive.key_mem, .inl rfl⟩
  · obtain ⟨live, hlive, rfl, -⟩ := hdeleted.unmark
    exact ⟨live.key, hlive.key_mem, .inr rfl⟩

end Row

/-- The key of an attribute shows whether its value is a composite one. -/
def Attribute.IsNamed (a : Attribute) : Prop :=
  a.value.isComposite = Text.mentions compositeDelimiter a.key

theorem Attribute.mentions_compositeName {keys : List String} (h : 2 ≤ keys.length) :
    Text.mentions compositeDelimiter (compositeName keys) = true := by
  obtain _ | ⟨key, _ | ⟨next, rest⟩⟩ := keys
  · cases h
  · simp at h
  · exact Text.mentions_iff.2 ⟨key, _, Text.joinWith_cons compositeDelimiter key (by simp)⟩

theorem Attribute.mentions_trim {key : String} (h : Text.mentions compositeDelimiter key) :
    Text.mentions compositeDelimiter (Text.trim key) := by
  have hsolid : ∀ c ∈ compositeDelimiter.toList, Text.isBlank c = false := by
    simp [compositeDelimiter, Text.isBlank]
  exact Text.mentions_trim hsolid (by decide) h

theorem Attribute.not_isComposite_of_issues {a : Attribute} (h : a.issues = []) :
    Text.mentions compositeDelimiter a.key = false ∧ a.value.isComposite = false := by
  unfold issues at h
  simp only at h
  split at h
  · cases h
  · simp only [List.append_eq_nil_iff, onlyIf, ite_eq_right_iff, List.cons_ne_nil, imp_false] at h
    obtain ⟨⟨⟨hname, hvalue⟩, -⟩, -⟩ := h
    exact ⟨Bool.eq_false_iff.2 fun hmentions => hname (mentions_trim hmentions),
      Bool.eq_false_iff.2 hvalue⟩

theorem Attribute.isNamed_of_issues {a : Attribute} (h : a.issues = []) : a.IsNamed := by
  obtain ⟨hkey, hvalue⟩ := not_isComposite_of_issues h
  rw [IsNamed, hkey, hvalue]

theorem Config.groupFault?_eq_none_of_mem {c : Config} (h : c.Valid) {group : List String}
    (hgroup : group ∈ c.compositeKeys) : groupFault? group = none := by
  unfold Valid fault? at h
  split_ifs at h
  exact List.findSome?_eq_none_iff.1 h group hgroup

theorem Config.two_le_length {c : Config} (h : c.Valid) {group : List String}
    (hgroup : group ∈ c.compositeKeys) : 2 ≤ group.length := by
  have hfault := groupFault?_eq_none_of_mem h hgroup
  unfold groupFault? at hfault
  split at hfault
  · cases hfault
  · omega

def Record.IsNamed (record : Record) : Prop := ∀ a, record = .attribute a → a.IsNamed

namespace Table

/-- All records in the table have the property, those of soft-deleted rows too. -/
def RecordsHave (P : Record → Prop) (T : Table) : Prop := ∀ row ∈ T, P row.record

def AttributesHave (P : Attribute → Prop) (T : Table) : Prop :=
  ∀ row ∈ T, ∀ a, row.record = .attribute a → P a

/-- What is joined from attributes with the property has it. -/
def JoinsWithin (P : Attribute → Prop) (c : Config) (t : Tenant) : Prop :=
  ∀ T : Table, T.AttributesHave P → ∀ id, ∀ group ∈ c.compositeKeys,
    ∀ a ∈ T.compositesOf t id group, P a

def Named (T : Table) : Prop := ∀ row ∈ T, row.record.IsNamed

variable {t : Tenant} {T : Table} {id key : String}

theorem isNamed_of_mem_compositesOf {group : List String} (hgroup : 2 ≤ group.length)
    {a : Attribute} (h : a ∈ T.compositesOf t id group) : a.IsNamed := by
  obtain ⟨values, -, userId, inserted, rfl⟩ := exists_of_mem_compositesOf h
  exact (Attribute.mentions_compositeName hgroup).symm

namespace RecordsHave

variable {P : Record → Prop}

theorem put (h : T.RecordsHave P) {row : Row} (hrow : P row.record) : (T.put row).RecordsHave P := by
  intro r hr
  rcases mem_put.1 hr with rfl | ⟨hr, -⟩
  · exact hrow
  · exact h r hr

theorem erase (h : T.RecordsHave P) (a : Address) : (T.erase a).RecordsHave P :=
  fun r hr => h r (mem_erase.1 hr).1

theorem eraseAll (h : T.RecordsHave P) (rows : List Row) : (T.eraseAll rows).RecordsHave P :=
  fun r hr => h r (mem_eraseAll.1 hr).1

theorem putAll (h : T.RecordsHave P) {rows : List Row} (hrows : ∀ row ∈ rows, P row.record) :
    (T.putAll rows).RecordsHave P :=
  List.foldlRecOn rows Table.put h fun _ hT row hrow => hT.put (hrows row hrow)

theorem move (h : T.RecordsHave P) {moves : List (Address × Row)}
    (hmoves : ∀ m ∈ moves, P m.2.record) : (T.move moves).RecordsHave P :=
  List.foldlRecOn moves _ h fun _ hT m hm => (hT.put (hmoves m hm)).erase m.1

theorem of_edits (h : T.RecordsHave P) {Q : Row → Prop} (hQ : ∀ row, Q row → P row.record)
    {T' : Table} (he : T.Edits Q T') : T'.RecordsHave P :=
  fun row hrow => (he.new row hrow).elim (h row) (hQ row)

theorem setTags (h : T.RecordsHave P) {tags : List Tag}
    (hnew : ∀ g ∈ tags, P (.tag { g with documentId := id })) :
    (T.setTags t id tags).RecordsHave P := by
  refine List.foldlRecOn tags _ h fun T hT g hg => (hT.eraseAll _).putAll fun row hrow => ?_
  obtain ⟨key, -, rfl⟩ := List.mem_map.1 hrow
  exact hnew g hg

theorem putAttributes (h : T.RecordsHave P) {attributes : List Attribute}
    (hnew : ∀ a ∈ attributes, P (.attribute a)) :
    (T.putAll (attributes.map (·.row t))).RecordsHave P := by
  refine h.putAll fun row hrow => ?_
  obtain ⟨a, ha, rfl⟩ := List.mem_map.1 hrow
  exact hnew a ha

theorem setAttributes (h : T.RecordsHave P) {attributes : List Attribute}
    (hnew : ∀ a ∈ attributes, P (.attribute a)) :
    (T.setAttributes t id attributes).RecordsHave P := by
  refine List.foldlRecOn _ _ h fun T hT key _ => (hT.eraseAll _).putAttributes fun a ha => ?_
  exact hnew a (List.mem_filter.1 ha).1

theorem attributes (h : T.RecordsHave P) : T.AttributesHave fun a => P (.attribute a) := by
  intro row hrow a ha
  rw [← ha]
  exact h row hrow

theorem refreshComposites (h : T.RecordsHave P) {c : Config}
    (hjoin : JoinsWithin (fun a => P (.attribute a)) c t) (keys : List String) :
    (T.refreshComposites c t id keys).RecordsHave P := by
  refine List.foldlRecOn _ _ h fun T hT group hgroup => ?_
  obtain ⟨key, -, hgroup⟩ := List.mem_flatMap.1 (mem_firsts.1 hgroup)
  have herased := hT.eraseAll (T.attributeRows t id (Attribute.compositeName group))
  exact herased.putAttributes (hjoin _ herased.attributes id group (List.mem_filter.1 hgroup).1)

theorem attributesSet (h : T.RecordsHave P) {c : Config}
    (hjoin : JoinsWithin (fun a => P (.attribute a)) c t) {attributes : List Attribute}
    (hnew : ∀ a ∈ attributes, P (.attribute { a with documentId := id })) :
    (T.attributesSet c t id attributes).RecordsHave P := by
  refine (h.setAttributes fun a ha => ?_).refreshComposites hjoin _
  obtain ⟨b, hb, rfl⟩ := List.mem_map.1 ha
  exact hnew b hb

theorem attributeDeleted (h : T.RecordsHave P) {c : Config}
    (hjoin : JoinsWithin (fun a => P (.attribute a)) c t) :
    (T.attributeDeleted c t id key).RecordsHave P := by
  unfold Table.attributeDeleted
  simp only
  split
  · exact (h.eraseAll _).refreshComposites hjoin _
  · exact h.eraseAll _

theorem remove (h : T.RecordsHave P) (hkeeps : T.Keeps t) (soft : Bool) {ids : List String}
    (hids : ids.Nodup) : (T.remove t soft ids).RecordsHave P := by
  have hrows := areLive_liveRows hkeeps ids
  cases soft with
  | false =>
    rw [remove_hard_eq hkeeps hids]
    exact h.eraseAll _
  | true =>
    rw [remove_soft_eq hkeeps hids, softDelete_eq fun row hrow => (hrows row hrow).2]
    refine h.move fun m hm => ?_
    obtain ⟨row, hrow, rfl⟩ := List.mem_map.1 hm
    exact h row (hrows row hrow).1

theorem restored (h : T.RecordsHave P) (hkeeps : T.Keeps t) {lives : List Row}
    (hr : T.Restores t id lives) : (T.move (backMoves t lives)).RecordsHave P := by
  refine h.move fun m hm => ?_
  obtain ⟨live, hl, rfl⟩ := List.mem_map.1 hm
  exact h (live.marked t) (hr.mem hkeeps hl)

end RecordsHave

namespace AttributesHave

variable {P : Attribute → Prop}

theorem eraseAll (h : T.AttributesHave P) (rows : List Row) : (T.eraseAll rows).AttributesHave P :=
  RecordsHave.eraseAll (P := fun record => ∀ a, record = .attribute a → P a) h rows

theorem putAttributes (h : T.AttributesHave P) {attributes : List Attribute}
    (hnew : ∀ a ∈ attributes, P a) : (T.putAll (attributes.map (·.row t))).AttributesHave P :=
  RecordsHave.putAttributes (P := fun record => ∀ a, record = .attribute a → P a) h
    fun a ha _ he => Record.attribute.inj he ▸ hnew a ha

theorem setAttributes (h : T.AttributesHave P) {attributes : List Attribute}
    (hnew : ∀ a ∈ attributes, P a) : (T.setAttributes t id attributes).AttributesHave P :=
  RecordsHave.setAttributes (P := fun record => ∀ a, record = .attribute a → P a) h
    fun a ha _ he => Record.attribute.inj he ▸ hnew a ha

end AttributesHave

end Table

theorem Row.record_of_attribute? {row : Row} {a : Attribute} (h : row.attribute? = some a) :
    row.record = .attribute a := by
  obtain ⟨key, record⟩ := row
  cases record <;> simp_all [Row.attribute?]

namespace Operation

variable {t : Tenant} {T : Table}

theorem issues_of_metadataFault? {id : String} {issues : List Issue}
    (h : T.metadataFault? t id issues = none) : issues = [] := by
  unfold Table.metadataFault? at h
  split at h
  · cases h
  · rename_i hissues
    exact not_not.1 hissues

/-- A request keeps a property of records that documents and nodes have anyway, as long as the tags and
attributes that it sets have it. -/
theorem recordsHave_effect {P : Record → Prop} (h : T.RecordsHave P) (hkeeps : T.Keeps t)
    {c : Config} (hjoin : Table.JoinsWithin (fun a => P (.attribute a)) c t)
    (hother : ∀ record : Record, record.kind = .document ∨ record.kind = .folderNode → P record)
    (op : Operation)
    (htags : ∀ id tags, op = addTags id tags → tags.flatMap Tag.issues = [] →
      ∀ g ∈ tags, P (.tag { g with documentId := id }))
    (hattributes : ∀ id attributes, op = setAttributes id attributes →
      attributes.flatMap Attribute.issues = [] →
      ∀ a ∈ attributes, P (.attribute { a with documentId := id })) :
    (op.effect c t T).RecordsHave P := by
  have ofNode (row : Row) (hrow : row.IsNode t) : P row.record := hother _ (.inr hrow.kind)
  cases op with
  | saveDocument d =>
    simp only [effect]
    split
    · exact h
    · refine h.of_edits (fun row hrow => hrow.elim (fun hrecord => ?_) (ofNode row))
        (Table.edits_saved hkeeps d)
      exact hother _ (.inl hrecord.kind)
  | deleteDocument id soft =>
    simp only [effect]
    split
    · exact h
    · exact h.remove hkeeps soft (Table.nodup_family t T id)
  | restoreDocument id =>
    obtain ⟨lives, hrestores, hmoves⟩ := Table.exists_restores hkeeps id
    simp only [effect, hmoves]
    split
    · exact h
    · exact (h.restored hkeeps hrestores).of_edits ofNode (Table.edits_indexPaths _ t _)
  | addTags id tags =>
    simp only [effect]
    split
    · exact h
    · rename_i hfault
      have hissues := issues_of_metadataFault? (Option.not_isSome_iff_eq_none.1 hfault)
      exact h.setTags (htags id tags rfl hissues)
  | deleteTag id key => exact h.eraseAll _
  | setAttributes id attributes =>
    simp only [effect]
    split
    · exact h
    · rename_i hfault
      have hissues := issues_of_metadataFault? (Option.not_isSome_iff_eq_none.1 hfault)
      exact h.attributesSet hjoin (hattributes id attributes rfl hissues)
  | deleteAttribute id key => exact h.attributeDeleted hjoin
  | deleteEmptyFolder path =>
    simp only [effect]
    split
    · exact h.erase _
    · exact h
  | findDocument | findDocuments | findDocumentVersion | listDocumentVersions | findChildDocuments
  | listDocumentsByDate | listDeletedDocuments | findTags | findTag | searchTags | findAttributes
  | findAttribute | search | listFolder | folderOfDocument => exact h

theorem attributesHave_effect {P : Attribute → Prop} (h : T.AttributesHave P) (hkeeps : T.Keeps t)
    {c : Config} (hjoin : Table.JoinsWithin P c t) (op : Operation)
    (hnew : ∀ id attributes, op = setAttributes id attributes →
      attributes.flatMap Attribute.issues = [] → ∀ a ∈ attributes, P { a with documentId := id }) :
    (op.effect c t T).AttributesHave P := by
  refine recordsHave_effect (P := fun record => ∀ a, record = .attribute a → P a) h hkeeps
    (fun T hT id group hgroup a ha _ he => ?_) (fun record hkind a he => ?_) op
    (fun _ _ _ _ _ _ => nofun) fun id attributes hop hissues a ha _ he => ?_
  · have hT : T.AttributesHave P := fun row hrow b hb => hT row hrow b hb b rfl
    exact Record.attribute.inj he ▸ hjoin T hT id group hgroup a ha
  · subst he
    simp [Record.kind] at hkind
  · exact Record.attribute.inj he ▸ hnew id attributes hop hissues a ha

end Operation

namespace Store

theorem recordsHave_fresh (P : Record → Prop) (name : String) (maxBatchSize : Nat) (clock : Clock) :
    (fresh name maxBatchSize clock).table.RecordsHave P :=
  fun row hrow => absurd hrow (not_mem_fresh name maxBatchSize clock row)

theorem attributesHave_fresh (P : Attribute → Prop) (name : String) (maxBatchSize : Nat)
    (clock : Clock) : (fresh name maxBatchSize clock).table.AttributesHave P :=
  recordsHave_fresh (fun record => ∀ a, record = .attribute a → P a) name maxBatchSize clock

theorem filedBy_induction {c : Config} {tenants : Tenant → Prop}
    (hapart : ∀ t u, tenants t → tenants u → u ≠ t → u.Apart t) {I : Table → Prop}
    {requests : List Request} (hrequests : ∀ r ∈ requests, tenants r.tenant)
    (step : ∀ r ∈ requests, ∀ T n, T.Keeps r.tenant → I T →
      I { r.operation.effect c r.tenant T with batchCalls := n })
    {s : Store} (hfiled : s.table.FiledBy tenants) (h : I s.table) :
    I (run c s requests).2.table := by
  have hboth : (run c s requests).2.table.FiledBy tenants ∧ I (run c s requests).2.table := by
    refine run_induction (I := fun T => T.FiledBy tenants ∧ I T) (fun r hr T n hT => ?_) ⟨hfiled, h⟩
    have ht := hrequests r hr
    have hkeeps : T.Keeps r.tenant := hT.1.keeps fun u hu => hapart r.tenant u ht hu
    exact ⟨hT.1.of_edits ht ((Operation.edits_effect hkeeps c r.operation).counted n),
      step r hr T n hkeeps hT.2⟩
  exact hboth.2

theorem attributesHave_run {P : Attribute → Prop} {c : Config} {tenants : Tenant → Prop}
    (hapart : ∀ t u, tenants t → tenants u → u ≠ t → u.Apart t)
    (hjoin : ∀ t, Table.JoinsWithin P c t) {requests : List Request}
    (hrequests : ∀ r ∈ requests, tenants r.tenant)
    (hnew : ∀ r ∈ requests, ∀ id attributes, r.operation = .setAttributes id attributes →
      attributes.flatMap Attribute.issues = [] → ∀ a ∈ attributes, P { a with documentId := id })
    {s : Store} (hfiled : s.table.FiledBy tenants) (h : s.table.AttributesHave P) :
    (run c s requests).2.table.AttributesHave P :=
  filedBy_induction (I := (·.AttributesHave P)) hapart hrequests
    (fun r hr _ _ hkeeps hT =>
      Operation.attributesHave_effect hT hkeeps (hjoin r.tenant) r.operation (hnew r hr)) hfiled h

theorem named_run {c : Config} (hc : c.Valid) {tenants : Tenant → Prop}
    (hapart : ∀ t u, tenants t → tenants u → u ≠ t → u.Apart t) {requests : List Request}
    (hrequests : ∀ r ∈ requests, tenants r.tenant) {s : Store} (hfiled : s.table.FiledBy tenants)
    (h : s.table.Named) : (run c s requests).2.table.Named := by
  have hjoin (t : Tenant) : Table.JoinsWithin Attribute.IsNamed c t :=
    fun T _ id group hgroup a ha =>
      Table.isNamed_of_mem_compositesOf (Config.two_le_length hc hgroup) ha
  refine attributesHave_run hapart hjoin hrequests (fun r _ id attributes _ hissues a ha => ?_)
    hfiled h
  exact Attribute.isNamed_of_issues (List.flatMap_eq_nil_iff.1 hissues a ha)

theorem named_fresh (name : String) (maxBatchSize : Nat) (clock : Clock) :
    (fresh name maxBatchSize clock).table.Named :=
  fun row hrow => absurd hrow (not_mem_fresh name maxBatchSize clock row)

/-- Each row stands under a key that its record has for the tenant, on the table and on both indexes,
or under that key marked as soft-deleted. Composite values are those of attributes whose key has the
delimiter. -/
theorem rows_stand_under_their_keys {c : Config} (hc : c.Valid) (name : String)
    (maxBatchSize : Nat) (clock : Clock) {t : Tenant} {requests : List Request}
    (hrequests : ∀ r ∈ requests, r.tenant = t) :
    ∀ row ∈ (run c (fresh name maxBatchSize clock) requests).2.table,
      (∃ k ∈ row.record.rowKeys t, row.key = k ∨ row.key = SoftDelete.mark t k) ∧
        ∀ a, row.record = .attribute a →
          (a.value.isComposite = true ↔ Text.mentions compositeDelimiter a.key = true) := by
  intro row hrow
  have hsound := sound_fresh t name maxBatchSize clock
  have hnamed : (run c (fresh name maxBatchSize clock) requests).2.table.Named :=
    named_run hc (Tenant.apart_of_eq t) hrequests (filedBy_fresh name maxBatchSize clock _)
      (named_fresh name maxBatchSize clock)
  refine ⟨((sound_run hrequests hsound).filed row hrow).exists_key, fun a ha => ?_⟩
  rw [hnamed row hrow a ha]

def dated : Config := { compositeKeys := [["category", "year"]] }

def described : List Request :=
  let document (id path : String) : Document :=
    { id, path := some path, userId := "u", inserted := ⟨1704067200, 0⟩,
      modified := ⟨1704067200, 0⟩ }
  let valued (key : String) (value : AttributeValue) : Attribute :=
    ⟨"p", key, value, "u", ⟨1704067200, 0⟩⟩
  let request (op : Operation) : Request := ⟨.site "acme", ⟨0⟩, op⟩
  [request (.saveDocument (document "p" "a/p.txt")),
    request (.setAttributes "p" [valued "category" (.text "memo"), valued "year" (.text "2024")]),
    request (.saveDocument (document "p" "b/p.txt")),
    request (.saveDocument (document "q" "a/q.txt")),
    request (.deleteDocument "q" true)]

theorem described_rows_stand_under_their_keys : dated.Valid ∧
    (∀ r ∈ described, r.tenant = .site "acme") ∧
    let T := (run dated (fresh "documents" 100 ⟨0⟩) described).2.table
    (∃ row ∈ T.rows.toList, row.attribute?.any (·.key = "category::year")) ∧
      (∃ row ∈ T.rows.toList, SoftDelete.isMarked (.site "acme") row.address.partition) ∧
      ∀ row ∈ T, (∃ k ∈ row.record.rowKeys (.site "acme"),
          row.key = k ∨ row.key = SoftDelete.mark (.site "acme") k) ∧
        ∀ a, row.record = .attribute a →
          (a.value.isComposite = true ↔ Text.mentions compositeDelimiter a.key = true) := by
  have hvalid : dated.Valid := by decide
  have hrequests : ∀ r ∈ described, r.tenant = .site "acme" := by decide
  exact ⟨hvalid, hrequests, by decide +kernel, by decide +kernel,
    rows_stand_under_their_keys hvalid "documents" 100 ⟨0⟩ hrequests⟩

end Store

end Cabinet
