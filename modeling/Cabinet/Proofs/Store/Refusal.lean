import Cabinet.Proofs.Store.Reached

/-! Writes that fail. Main statements: a write fails for what it finds in the table before it writes
anything, whatever the table holds, and leaves the store as it was; the writes that fail can be left
out of a run. -/

namespace Cabinet

namespace Table

variable {t : Tenant} {rows : List Row} {fault : SoftDelete.Unmarked}

theorem unmarkedMoves_eq_error_iff : unmarkedMoves t rows = .error fault ↔
    ∃ before row after, rows = before ++ row :: after ∧
      (∀ r ∈ before, (SoftDelete.unmark t r.key).isOk) ∧
        SoftDelete.unmark t row.key = .error fault := by
  induction rows with
  | nil => simp [unmarkedMoves]
  | cons row rows ih =>
    simp only [List.cons_eq_append_iff]
    cases hrow : SoftDelete.unmark t row.key with
    | error first =>
      have hmoves : unmarkedMoves t (row :: rows) = .error first := by
        rw [unmarkedMoves, hrow]
        rfl
      rw [hmoves]
      constructor
      · rintro ⟨⟩
        exact ⟨[], row, rows, .inl ⟨rfl, rfl⟩, List.forall_mem_nil _, hrow⟩
      · rintro ⟨before, r, after, ⟨rfl, he⟩ | ⟨rest, rfl, -⟩, hbefore, hr⟩
        · obtain ⟨rfl, -⟩ := List.cons.inj he
          exact congrArg _ (Except.error.inj (hrow.symm.trans hr))
        · have hok := hbefore row List.mem_cons_self
          rw [hrow] at hok
          cases hok
    | ok key =>
      have hmoves : unmarkedMoves t (row :: rows) = .error fault ↔
          unmarkedMoves t rows = .error fault := by
        rw [unmarkedMoves, hrow]
        cases unmarkedMoves t rows <;> simp [bind, Except.bind, pure, Except.pure]
      rw [hmoves, ih]
      constructor
      · rintro ⟨before, r, after, rfl, hbefore, hr⟩
        refine ⟨row :: before, r, after, .inr ⟨before, rfl, rfl⟩, ?_, hr⟩
        exact List.forall_mem_cons.2 ⟨hrow ▸ rfl, hbefore⟩
      · rintro ⟨before, r, after, ⟨rfl, he⟩ | ⟨rest, rfl, he⟩, hbefore, hr⟩
        · obtain ⟨rfl, -⟩ := List.cons.inj he
          rw [hrow] at hr
          cases hr
        · exact ⟨rest, r, after, he, (List.forall_mem_cons.1 hbefore).2, hr⟩

def restoreFault? (T : Table) (t : Tenant) (id : String) : Option Error :=
  if (T.document? t id).isSome then some (.documentExists id)
  else match unmarkedMoves t (T.restorable t id) with
    | .ok _ => none
    | .error fault => some (.unmarked fault)

end Table

namespace Operation

variable {c : Config} {t : Tenant} {s : Store} {op : Operation} {e : Error}

def isWrite : Operation → Bool
  | saveDocument _ | deleteDocument _ _ | restoreDocument _ | addTags _ _ | deleteTag _ _
  | setAttributes _ _ | deleteAttribute _ _ | deleteEmptyFolder _ => true
  | _ => false

/-- Why a write fails, as the table tells before it. -/
def fault? (t : Tenant) (T : Table) : Operation → Option Error
  | saveDocument d => T.saveFault? t d
  | restoreDocument id => T.restoreFault? t id
  | addTags id tags => T.metadataFault? t id (tags.flatMap Tag.issues)
  | setAttributes id attributes => T.metadataFault? t id (attributes.flatMap Attribute.issues)
  | deleteEmptyFolder path =>
    match T.emptyFolder t path with
    | .ok _ => none
    | .error e => some e
  | _ => none

theorem run_write (c : Config) (t : Tenant) (s : Store) (hop : op.isWrite) :
    match op.fault? t s.table with
    | some e => (op.perform c t).run s = (.error e, s)
    | none => ∃ answer, (op.perform c t).run s =
      (.ok answer, { s with table := op.effect c t s.table }) := by
  cases op with
  | saveDocument d =>
    simp only [perform, Action.run_bind, Store.run_saveDocument, fault?, effect]
    cases s.table.saveFault? t d with
    | some e => rfl
    | none => exact ⟨_, rfl⟩
  | restoreDocument id =>
    simp only [perform, Action.run_bind, Store.run_restoreDocument, fault?, effect,
      Table.restoreFault?]
    by_cases hlive : (s.table.document? t id).isSome
    · simp [hlive]
    by_cases hnil : s.table.restorable t id = []
    · simp only [hlive, hnil, Table.unmarkedMoves, Bool.false_eq_true, if_false, if_true, or_true]
      exact ⟨_, rfl⟩
    · simp only [hlive, hnil, Bool.false_eq_true, if_false, or_self]
      cases Table.unmarkedMoves t (s.table.restorable t id) with
      | ok moves => exact ⟨_, rfl⟩
      | error fault => rfl
  | addTags id tags =>
    simp only [perform, Action.run_bind, Store.run_addTags, fault?, effect]
    cases s.table.metadataFault? t id (tags.flatMap Tag.issues) with
    | some e => rfl
    | none => exact ⟨_, rfl⟩
  | setAttributes id attributes =>
    simp only [perform, Action.run_bind, Store.run_setAttributes, fault?, effect]
    cases s.table.metadataFault? t id (attributes.flatMap Attribute.issues) with
    | some e => rfl
    | none => exact ⟨_, rfl⟩
  | deleteEmptyFolder path =>
    simp only [perform, Action.run_bind, Store.run_deleteEmptyFolder, fault?, effect]
    cases s.table.emptyFolder t path with
    | error e => rfl
    | ok a => exact ⟨_, rfl⟩
  | deleteDocument id soft =>
    simp only [perform, Action.run_bind, Store.run_deleteDocument, fault?, effect]
    cases s.table.document? t id <;> exact ⟨_, rfl⟩
  | deleteTag id key =>
    exact ⟨_, rfl⟩
  | deleteAttribute id key =>
    simp only [perform, Action.run_bind, Store.run_deleteAttribute, fault?, effect]
    exact ⟨_, rfl⟩
  | _ => cases hop

/-- A write fails exactly for its fault, and then the store is as it was. -/
theorem run_eq_error_iff (c : Config) (hop : op.isWrite) {s' : Store} :
    (op.perform c t).run s = (.error e, s') ↔ op.fault? t s.table = some e ∧ s' = s := by
  have hrun := run_write c t s hop
  cases hfault : op.fault? t s.table with
  | some f =>
    rw [hfault] at hrun
    constructor
    · intro he
      cases hrun.symm.trans he
      exact ⟨rfl, rfl⟩
    · rintro ⟨⟨⟩, rfl⟩
      exact hrun
  | none =>
    rw [hfault] at hrun
    obtain ⟨answer, hanswer⟩ := hrun
    refine iff_of_false (fun he => ?_) nofun
    cases hanswer.symm.trans he

end Operation

namespace Store

theorem run_restoreRows_eq_error_iff {t : Tenant} {rows : List Row} {s s' : Store} {e : Error} :
    (restoreRows t rows).run s = (.error e, s') ↔
      (∃ fault, Table.unmarkedMoves t rows = .error fault ∧ e = .unmarked fault) ∧ s' = s := by
  unfold restoreRows
  cases Table.unmarkedMoves t rows with
  | ok moves => exact iff_of_false nofun nofun
  | error fault =>
    constructor
    · rintro ⟨⟩
      exact ⟨⟨fault, rfl, rfl⟩, rfl⟩
    · rintro ⟨⟨_, ⟨⟩, rfl⟩, rfl⟩
      rfl

/-- Whatever the table holds: a write that fails leaves the store as it was. It fails for its fault
in the table as it was, and moving rows back for the first row without the mark. -/
theorem failed_write_changes_nothing (c : Config) (t : Tenant) (s : Store) :
    (∀ op : Operation, op.isWrite → ∀ e, ((op.perform c t).run s).1 = .error e →
      ((op.perform c t).run s).2 = s ∧ op.fault? t s.table = some e) ∧
    ∀ rows e, ((restoreRows t rows).run s).1 = .error e →
      ((restoreRows t rows).run s).2 = s ∧ ∃ before row after fault, rows = before ++ row :: after ∧
        (∀ r ∈ before, (SoftDelete.unmark t r.key).isOk) ∧
          SoftDelete.unmark t row.key = .error fault ∧ e = .unmarked fault := by
  constructor
  · intro op hop e he
    exact ((op.run_eq_error_iff c hop).1 (Prod.ext he rfl)).symm
  · intro rows e he
    obtain ⟨⟨fault, hmoves, rfl⟩, hs⟩ := run_restoreRows_eq_error_iff.1 (Prod.ext he rfl)
    obtain ⟨before, row, after, hrows, hbefore, hrow⟩ := Table.unmarkedMoves_eq_error_iff.1 hmoves
    exact ⟨hs, before, row, after, fault, hrows, hbefore, hrow, rfl⟩

/-- The record of a soft-deleted document, and one of its tags that lacks the mark in its sort
key. -/
def halfMarked : Store where
  table :=
    let day : Instant := ⟨1704067200, 0⟩
    let document : Document := { id := "d", userId := "u", inserted := day, modified := day }
    let tag : Tag :=
      { documentId := "d", key := "state", value := .single "open", userId := "u", inserted := day }
    let address : Address := ⟨SoftDelete.markKey .default (Partition.document .default "d"),
      SortKey.tag "state"⟩
    ({ name := "documents", maxBatchSize := 100 } : Table).putAll
      [document.liveRow.marked .default, ⟨{ primary := address }, .tag tag⟩]
  clock := ⟨0⟩

theorem halfMarked_stays_deleted :
    let restore := ((Operation.restoreDocument "d").perform {} .default).run halfMarked
    let rows := halfMarked.table.restorable .default "d"
    let move := (restoreRows .default rows).run halfMarked
    let fault : Error := .unmarked ⟨"tags#state"⟩
    rows.length = 2 ∧ restore.1 = .error fault ∧ restore.2 = halfMarked ∧
      move.1 = .error fault ∧ move.2 = halfMarked := by
  intro restore rows move fault
  have hrestore : restore.1 = .error fault := by decide +kernel
  have hmove : move.1 = .error fault := by decide +kernel
  obtain ⟨hwrites, hrows⟩ := failed_write_changes_nothing {} .default halfMarked
  exact ⟨by decide +kernel, hrestore, (hwrites (.restoreDocument "d") rfl fault hrestore).1, hmove,
    (hrows rows fault hmove).1⟩

def isFailedWrite (asked : Request × Except Error Answer) : Bool :=
  asked.1.operation.isWrite && !asked.2.isOk

def heeded (c : Config) (s : Store) (requests : List Request) :
    List (Request × Except Error Answer) :=
  (requests.zip (run c s requests).1).filter (!isFailedWrite ·)

/-- Without the writes that fail a run gives the other answers as it did, and leaves the same
table. -/
theorem run_heeded (c : Config) (s : Store) (requests : List Request) :
    (run c s ((heeded c s requests).map Prod.fst)).1 = (heeded c s requests).map Prod.snd ∧
      (run c s ((heeded c s requests).map Prod.fst)).2.table = (run c s requests).2.table := by
  induction requests generalizing s with
  | nil => exact ⟨rfl, rfl⟩
  | cons r rest ih =>
    obtain ⟨hanswers, htable⟩ := ih (s.step c r).2
    have hheeded : heeded c s (r :: rest) = if isFailedWrite (r, (s.step c r).1)
        then heeded c (s.step c r).2 rest
        else (r, (s.step c r).1) :: heeded c (s.step c r).2 rest := by
      unfold heeded
      rw [run_cons, List.zip_cons_cons, List.filter_cons]
      cases isFailedWrite (r, (s.step c r).1) <;> rfl
    rw [hheeded, run_cons]
    split
    · rename_i hfailed
      obtain ⟨hwrite, hanswer⟩ := Bool.and_eq_true_iff.1 hfailed
      -- the failed write has set the clock, which the next request sets again
      have hstep : (s.step c r).2 = { s with clock := r.clock } := by
        cases he : (s.step c r).1 with
        | ok answer =>
          rw [he] at hanswer
          cases hanswer
        | error e =>
          exact ((r.operation.run_eq_error_iff c hwrite).1 (Prod.ext he rfl)).2
      obtain ⟨hsame, hsameTable⟩ := run_clock c s r.clock
        ((heeded c (s.step c r).2 rest).map Prod.fst)
      rw [hstep] at hanswers htable hsame hsameTable ⊢
      exact ⟨hsame.symm.trans hanswers, hsameTable.symm.trans htable⟩
    · rw [List.map_cons, List.map_cons, run_cons]
      exact ⟨congrArg _ hanswers, htable⟩

end Store

end Cabinet
