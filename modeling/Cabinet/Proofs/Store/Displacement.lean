import Cabinet.Proofs.Record.Identity
import Cabinet.Proofs.Store.Isolation

/-! The rows that saving, tagging and describing a document write, one by one. Main statement: a row
takes the place of one for the same thing, except where the sign between the parts of keys can be read
in two ways. -/

namespace Cabinet

/-- A row on its way into a table. -/
structure Write where
  before : Table
  row : Row

namespace Write

/-- What the row takes the place of, if anything, is for the same thing. -/
def KeepsRecords (w : Write) : Prop :=
  ∀ old ∈ w.before, old.address = w.row.address → old.identity = w.row.identity

instance (w : Write) : Decidable w.KeepsRecords :=
  inferInstanceAs (Decidable
    (∀ old ∈ w.before.rows.toList, old.address = w.row.address → old.identity = w.row.identity))

def Collides (t : Tenant) (w : Write) : Prop := ∃ old ∈ w.before, old.Collides t w.row

end Write

namespace Table

def writesAlong {α : Type} (step : Table → α → Table) (writes : Table → α → List Write) :
    Table → List α → List Write
  | _, [] => []
  | T, a :: as => writes T a ++ writesAlong step writes (step T a) as

def rowWrites (T : Table) (rows : List Row) : List Write :=
  T.writesAlong put (fun T row => [⟨T, row⟩]) rows

def tagWrites (T : Table) (t : Tenant) (id : String) (tags : List Tag) : List Write :=
  T.writesAlong (fun T g => T.setTag t { g with documentId := id })
    (fun T g => (T.eraseAll (T.tagRows t id g.key)).rowWrites
      (Tag.rows t { g with documentId := id })) tags

def attributeWrites (T : Table) (t : Tenant) (id : String) (attributes : List Attribute) :
    List Write :=
  T.writesAlong (fun T key => T.setAttribute t id key (attributes.filter (·.key = key)))
    (fun T key => (T.eraseAll (T.attributeRows t id key)).rowWrites
      ((attributes.filter (·.key = key)).map (·.row t))) (attributeKeys attributes)

def compositeWrites (T : Table) (c : Config) (t : Tenant) (id : String) (keys : List String) :
    List Write :=
  T.writesAlong (fun T group => T.refreshGroup t id group)
    (fun T group =>
      let T := T.eraseAll (T.attributeRows t id (Attribute.compositeName group))
      T.rowWrites ((T.compositesOf t id group).map (·.row t))) (firsts (keys.flatMap c.groupsOf))

def attributesSetWrites (T : Table) (c : Config) (t : Tenant) (id : String)
    (attributes : List Attribute) : List Write :=
  let attributes := attributes.map fun a => { a with documentId := id }
  T.attributeWrites t id attributes ++
    (T.setAttributes t id attributes).compositeWrites c t id (attributeKeys attributes)

def saveWrites (T : Table) (t : Tenant) (d : Document) : List Write :=
  ((T.document? t d.id).toList.map fun live => ⟨T, live.archivedRow⟩) ++
    ((T.cleared t d).rowWrites (Folder.rowsOfPath t d.id d.path) ++
      [⟨(T.cleared t d).indexPath t d.id d.path, (T.successor t d).liveRow⟩])

end Table

namespace Operation

def addsRecords : Operation → Bool
  | saveDocument _ | addTags _ _ | setAttributes _ _ => true
  | _ => false

/-- What such a request writes, in order, each row with the table that it comes to. -/
def writes (c : Config) (t : Tenant) : Operation → Table → List Write
  | saveDocument d, T => if (T.saveFault? t d).isSome then [] else T.saveWrites t d
  | addTags id tags, T =>
    if (T.metadataFault? t id (tags.flatMap Tag.issues)).isSome then [] else T.tagWrites t id tags
  | setAttributes id attributes, T =>
    if (T.metadataFault? t id (attributes.flatMap Attribute.issues)).isSome then []
    else T.attributesSetWrites c t id attributes
  | _, _ => []

end Operation

namespace Table

/-- The writes lead from one table to the other; rows may be erased before, between and after them. -/
inductive LeadsTo : Table → List Write → Table → Prop
  | done (T : Table) : LeadsTo T [] T
  | write {T T' : Table} {row : Row} {writes : List Write} (h : LeadsTo (T.put row) writes T') :
    LeadsTo T (⟨T, row⟩ :: writes) T'
  | erase {T T' : Table} {a : Address} {writes : List Write} (h : LeadsTo (T.erase a) writes T') :
    LeadsTo T writes T'

namespace LeadsTo

variable {t : Tenant} {T T' T'' : Table} {writes writes' : List Write}

theorem trans (h : T.LeadsTo writes T') (h' : T'.LeadsTo writes' T'') :
    T.LeadsTo (writes ++ writes') T'' := by
  induction h with
  | done T => exact h'
  | write _ ih => exact .write (ih h')
  | erase _ ih => exact .erase (ih h')

theorem put (T : Table) (row : Row) : T.LeadsTo [⟨T, row⟩] (T.put row) := .write (.done _)

theorem eraseAll (T : Table) (rows : List Row) : T.LeadsTo [] (T.eraseAll rows) := by
  unfold Table.eraseAll
  induction rows generalizing T with
  | nil => exact .done T
  | cons row rows ih => exact .erase (ih (T.erase row.address))

theorem along {α : Type} {step : Table → α → Table} {writesAt : Table → α → List Write}
    (h : ∀ T a, LeadsTo T (writesAt T a) (step T a)) (T : Table) (as : List α) :
    T.LeadsTo (T.writesAlong step writesAt as) (as.foldl step T) := by
  induction as generalizing T with
  | nil => exact .done T
  | cons a as ih => exact (h T a).trans (ih (step T a))

theorem putAll (T : Table) (rows : List Row) : T.LeadsTo (T.rowWrites rows) (T.putAll rows) :=
  along put T rows

theorem setTags (T : Table) (t : Tenant) (id : String) (tags : List Tag) :
    T.LeadsTo (T.tagWrites t id tags) (T.setTags t id tags) :=
  along (fun T _ => (eraseAll T _).trans (putAll _ _)) T tags

theorem attributesSet (T : Table) (c : Config) (t : Tenant) (id : String)
    (attributes : List Attribute) :
    T.LeadsTo (T.attributesSetWrites c t id attributes) (T.attributesSet c t id attributes) :=
  (along (fun T _ => (eraseAll T _).trans (putAll _ _)) T _).trans
    (along (fun T _ => (eraseAll T _).trans (putAll _ _)) _ _)

theorem cleared (T : Table) (t : Tenant) (d : Document) :
    T.LeadsTo ((T.document? t d.id).toList.map fun live => ⟨T, live.archivedRow⟩)
      (T.cleared t d) := by
  rw [cleared_eq]
  cases T.document? t d.id with
  | none => exact (done T).trans (eraseAll T _)
  | some live => exact (put T live.archivedRow).trans (eraseAll _ _)

theorem saved (T : Table) (t : Tenant) (d : Document) :
    T.LeadsTo (T.saveWrites t d) (T.saved t d) :=
  (cleared T t d).trans ((putAll _ _).trans (put _ _))

theorem keeps (h : T.LeadsTo writes T') (hT : T.Keeps t) (hrows : ∀ w ∈ writes, w.row.IsLive t) :
    ∀ w ∈ writes, w.before.Keeps t := by
  induction h with
  | done T => exact fun w hw => absurd hw List.not_mem_nil
  | @write T T' row writes _ ih =>
    obtain ⟨hrow, hrest⟩ := List.forall_mem_cons.1 hrows
    have hput : (T.put row).Keeps t :=
      hT.of_edits (fun row' (he : row' = row) => .inl (he ▸ hrow)) (Edits.put rfl)
    exact List.forall_mem_cons.2 ⟨hT, ih hput hrest⟩
  | erase _ ih => exact ih (fun row hrow => hT row (mem_erase.1 hrow).1) hrows

end LeadsTo

section

variable {t : Tenant} {T : Table} {c : Config} {w : Write}

theorem mem_writesAlong {α : Type} {step : Table → α → Table} {writes : Table → α → List Write}
    {as : List α} (h : w ∈ T.writesAlong step writes as) : ∃ a ∈ as, ∃ T', w ∈ writes T' a := by
  induction as generalizing T with
  | nil => cases h
  | cons a as ih =>
    rcases List.mem_append.1 h with h | h
    · exact ⟨a, List.mem_cons_self, T, h⟩
    · obtain ⟨b, hb, hw⟩ := ih h
      exact ⟨b, List.mem_cons_of_mem a hb, hw⟩

theorem mem_rowWrites {rows : List Row} (h : w ∈ T.rowWrites rows) : w.row ∈ rows := by
  obtain ⟨row, hrow, T', hw⟩ := mem_writesAlong h
  rwa [List.mem_singleton.1 hw]

theorem isLive_attributeRows {attributes : List Attribute}
    (h : w ∈ T.rowWrites (attributes.map (·.row t))) : w.row.IsLive t := by
  obtain ⟨a, -, ha⟩ := List.mem_map.1 (mem_rowWrites h)
  exact ha ▸ .value a

theorem isLive_saveWrites (hT : T.Keeps t) {d : Document} (h : w ∈ T.saveWrites t d) :
    w.row.IsLive t := by
  rcases List.mem_append.1 h with h | h
  · obtain ⟨live, hlive, rfl⟩ := List.mem_map.1 h
    obtain ⟨-, ht, -⟩ := (document?_eq_some_iff hT).1 (Option.mem_toList.1 hlive)
    exact .version live ht
  · rcases List.mem_append.1 h with h | h
    · exact (Row.isNode_of_mem_rowsOfPath (mem_rowWrites h)).1
    · rw [List.mem_singleton.1 h]
      exact .document _ (successor_tenant T t d)

end

end Table

namespace Operation

variable {t : Tenant} {T : Table} {c : Config} {op : Operation}

theorem leadsTo_effect (hop : op.addsRecords) (c : Config) (t : Tenant) (T : Table) :
    T.LeadsTo (op.writes c t T) (op.effect c t T) := by
  cases op with
  | saveDocument d =>
    simp only [writes, effect]
    split
    · exact .done T
    · exact .saved T t d
  | addTags id tags =>
    simp only [writes, effect]
    split
    · exact .done T
    · exact .setTags T t id tags
  | setAttributes id attributes =>
    simp only [writes, effect]
    split
    · exact .done T
    · exact .attributesSet T c t id attributes
  | _ => cases hop

theorem isLive_of_mem_writes (hT : T.Keeps t) {w : Write} (hw : w ∈ op.writes c t T) :
    w.row.IsLive t := by
  cases op with
  | saveDocument d =>
    simp only [writes] at hw
    split at hw
    · cases hw
    · exact Table.isLive_saveWrites hT hw
  | addTags id tags =>
    simp only [writes] at hw
    split at hw
    · cases hw
    · obtain ⟨g, -, T', hw⟩ := Table.mem_writesAlong hw
      exact .tag _ (Table.mem_rowWrites hw)
  | setAttributes id attributes =>
    simp only [writes] at hw
    split at hw
    · cases hw
    · rcases List.mem_append.1 hw with hw | hw
      · obtain ⟨key, -, T', hw⟩ := Table.mem_writesAlong hw
        exact Table.isLive_attributeRows hw
      · obtain ⟨group, -, T', hw⟩ := Table.mem_writesAlong hw
        exact Table.isLive_attributeRows hw
  | _ => cases hw

/-- A row takes the place of one for another thing exactly when the two collide. -/
theorem keepsRecords_iff (hT : T.Keeps t) (hop : op.addsRecords) {w : Write}
    (hw : w ∈ op.writes c t T) : w.KeepsRecords ↔ ¬w.Collides t := by
  have hlive : w.row.IsLive t := isLive_of_mem_writes hT hw
  have hbefore : w.before.Keeps t :=
    (leadsTo_effect hop c t T).keeps hT (fun _ => isLive_of_mem_writes hT) w hw
  constructor
  · rintro hkeeps ⟨old, hold, hcollides⟩
    have hplace : old.address = w.row.address :=
      hcollides.elim (·.address_eq) (·.address_eq.symm)
    have hdiffer : old.identity ≠ w.row.identity :=
      hcollides.elim (·.identity_ne) (·.identity_ne.symm)
    exact hdiffer (hkeeps old hold hplace)
  · intro hnone old hold ha
    have hold' : old.IsLive t := hbefore.isLive_of_partition hold (ha ▸ hlive.partition)
    by_contra hne
    exact hnone ⟨old, hold, (hold'.collides_iff hlive).2 ⟨ha, hne⟩⟩

theorem table_step_of_addsRecords (hop : op.addsRecords) (c : Config) (s : Store) (t : Tenant)
    (now : Clock) : (s.step c ⟨t, now, op⟩).2.table = op.effect c t s.table := by
  cases op with
  | saveDocument d =>
    simp only [Store.step, perform, Action.run_bind, Store.run_saveDocument, effect]
    cases s.table.saveFault? t d <;> rfl
  | addTags id tags =>
    simp only [Store.step, perform, Action.run_bind, Store.run_addTags, effect]
    cases s.table.metadataFault? t id (tags.flatMap Tag.issues) <;> rfl
  | setAttributes id attributes =>
    simp only [Store.step, perform, Action.run_bind, Store.run_setAttributes, effect]
    cases s.table.metadataFault? t id (attributes.flatMap Attribute.issues) <;> rfl
  | _ => cases hop

end Operation

namespace Store

variable {tenants : Tenant → Prop} {t : Tenant} {c : Config} {requests : List Request}
  {op : Operation}

/-- After the requests of tenants side by side, a document is saved, tagged or described: the writes
lead to the table that there is then, and each row takes the place of one for the same thing, if of any,
exactly when no row collides with one in the table that it comes to. -/
theorem writes_keep_records_iff (name : String) (maxBatchSize : Nat) (clock : Clock)
    (hapart : ∀ t u, tenants t → tenants u → u ≠ t → u.Apart t) (ht : tenants t)
    (hrequests : ∀ r ∈ requests, tenants r.tenant) (hop : op.addsRecords) (now : Clock) :
    let s := (run c (fresh name maxBatchSize clock) requests).2
    let writes := op.writes c t s.table
    s.table.LeadsTo writes (s.step c ⟨t, now, op⟩).2.table ∧
      ((∀ w ∈ writes, w.KeepsRecords) ↔ ∀ w ∈ writes, ¬w.Collides t) := by
  intro s writes
  have hkeeps : s.table.Keeps t :=
    (filedBy_run hapart hrequests (filedBy_fresh name maxBatchSize clock tenants)).keeps
      fun u hu => hapart t u ht hu
  refine ⟨?_, forall₂_congr fun w hw => Operation.keepsRecords_iff hkeeps hop hw⟩
  rw [Operation.table_step_of_addsRecords hop]
  exact Operation.leadsTo_effect hop c t s.table

def saving (id path : String) : Operation :=
  .saveDocument { id, path := some path, userId := "u", inserted := ⟨1704067200, 0⟩,
                  modified := ⟨1704067200, 0⟩ }

def tagging (key : String) (value : TagValue) : Operation :=
  .addTags "z" [{ documentId := "", key, value, userId := "u", inserted := ⟨1704067200, 0⟩ }]

def describing (key value : String) : Operation :=
  .setAttributes "z" [⟨"", key, .text value, "u", ⟨1704067200, 0⟩⟩]

def reportFiled : List Request :=
  let own (op : Operation) : Request := ⟨.default, ⟨0⟩, op⟩
  [own (saving "z" "2024/x#y"), own (tagging "topic" (.many ["a", "b"])),
    own (describing "kind" "memo#1")]

/-- The document is saved under another name: its folder and its live record are written in place of
the ones that are there. -/
theorem reportFiled_keeps_records : (∀ r ∈ reportFiled, r.tenant = .default) ∧
    (saving "z" "2024/plan").addsRecords ∧
    let s := (run {} (fresh "documents" 100 ⟨0⟩) reportFiled).2
    let writes := (saving "z" "2024/plan").writes {} .default s.table
    (writes.filterMap fun w => (w.before.get? w.row.address).map Row.identity) =
        [.node .folder "folders#" "2024" none, .document "z" none] ∧
      (∀ w ∈ writes, w.KeepsRecords) ∧ ∀ w ∈ writes, ¬w.Collides .default := by
  have hrequests : ∀ r ∈ reportFiled, r.tenant = .default := by simp [reportFiled]
  have hop : (saving "z" "2024/plan").addsRecords := rfl
  have hkept : ∀ w ∈ (saving "z" "2024/plan").writes {} .default
      (run {} (fresh "documents" 100 ⟨0⟩) reportFiled).2.table, w.KeepsRecords := by
    decide +kernel
  exact ⟨hrequests, hop, by decide +kernel, hkept, (writes_keep_records_iff "documents" 100 ⟨0⟩
    (Tenant.apart_of_eq .default) rfl hrequests hop ⟨0⟩).2.1 hkept⟩

/-- A tag is written over the first of the topics, an attribute over the kind, and the leaf of another
document over the one that was there; the old ones are found no more. -/
theorem records_written_over :
    let s := (run {} (fresh "documents" 100 ⟨0⟩) reportFiled).2
    let writesOver op := ¬∀ w ∈ op.writes {} .default s.table, w.KeepsRecords
    let askAfter op question := ((s.step {} ⟨.default, ⟨0⟩, op⟩).2.step {} ⟨.default, ⟨0⟩, question⟩).1
    (writesOver (tagging "topic#0000" (.single "c")) ∧
      askAfter (tagging "topic#0000" (.single "c")) (.searchTags "topic" (some "a") {}) =
        .ok (.tagPage { items := [] })) ∧
    (writesOver (describing "kind#memo" "1") ∧
      askAfter (describing "kind#memo" "1") (.findAttribute "z" "kind") = .ok (.attributes [])) ∧
    writesOver (saving "y#z" "2024/x") ∧
      askAfter (saving "y#z" "2024/x") (.folderOfDocument "z") = .ok (.node none) := by
  decide +kernel

end Store

end Cabinet
