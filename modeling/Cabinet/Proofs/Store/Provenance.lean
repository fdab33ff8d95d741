import Cabinet.Proofs.Store.Shelved

/-! Where the rows of a table come from. Main statement: each row belongs to no document or to one
that was saved. -/

namespace Cabinet

namespace Table

variable {t : Tenant} {T T' : Table} {row : Row} {id m : String} {d : Document}

def Owns (T : Table) (id : String) : Prop := ∃ row ∈ T, row.documentId? = some id

theorem owns_of_document? (h : T.Keeps t) (hlive : (T.document? t id).isSome) : T.Owns id := by
  obtain ⟨d, hrow, -, hid⟩ := (isSome_document?_iff h).1 hlive
  exact ⟨d.liveRow, hrow, congrArg some hid⟩

theorem owns_of_metadata (he : T.Edits (Row.IsMetadataOf t m) T') (hm : T.Owns m) (hrow : row ∈ T')
    (hid : row.documentId? = some id) : T.Owns id := by
  rcases he.new row hrow with hmem | hmetadata
  · exact ⟨row, hmem, hid⟩
  · have hown := (hmetadata.1.documentId?_of_partition hmetadata.2.1).1
    obtain rfl : m = id := Option.some.inj (hown.symm.trans hid)
    exact hm

theorem owns_of_saved (h : T.Keeps t) (hrow : row ∈ T.saved t d)
    (hid : row.documentId? = some id) : T.Owns id ∨ d.id = id := by
  rcases (edits_saved h d).new row hrow with hmem | hrecord | hnode
  · exact .inl ⟨row, hmem, hid⟩
  · have hown := (hrecord.1.documentId?_of_partition hrecord.2.1).1
    exact .inr (Option.some.inj (hown.symm.trans hid))
  · have hindex : (T.cleared t d).Edits (· ∈ Folder.rowsOfPath t d.id d.path)
        ((T.cleared t d).indexPath t d.id d.path) := Edits.putAll (fun _ hr => hr) _
    -- a row of the folder tree was there, or it is on the path of the saved document
    rcases hindex.new row ((mem_saved hnode).1 hrow) with hcleared | hpath
    · exact .inl ⟨row, ((mem_cleared h hnode).1 hcleared).1, hid⟩
    · exact .inr (Row.documentId?_of_mem_rowsOfPath hpath id hid).symm

theorem owns_of_removed (h : T.Keeps t) {soft : Bool} {ids : List String} (hids : ids.Nodup)
    (hrow : row ∈ T.remove t soft ids) (hid : row.documentId? = some id) : T.Owns id := by
  have hrows := areLive_liveRows h ids
  cases soft with
  | false =>
    rw [remove_hard_eq h hids] at hrow
    exact ⟨row, (mem_eraseAll.1 hrow).1, hid⟩
  | true =>
    rw [remove_soft_eq h hids, mem_softDelete hrows (nodup_flatMap_liveRows h hids)] at hrow
    rcases hrow with ⟨r, hr, rfl⟩ | ⟨hmem, -⟩
    · exact ⟨r, (hrows r hr).1, hid⟩
    · exact ⟨row, hmem, hid⟩

theorem Restores.owns_of_written {lives : List Row} (hr : T.Restores t m lives) (h : T.Keeps t)
    (hrow : row ∈ lives ++ pathRows t (T.restorableDocuments t m))
    (hid : row.documentId? = some id) : T.Owns id := by
  rcases List.mem_append.1 hrow with hl | hpath
  · exact ⟨row.marked t, hr.mem h hl, hid⟩
  · obtain ⟨d, hd, hpath⟩ := List.mem_flatMap.1 hpath
    obtain ⟨m', -, hd⟩ := List.mem_flatMap.1 hd
    obtain ⟨hmem, -, -⟩ := (mem_deletedDocuments h).1 hd
    obtain rfl : id = d.id := Row.documentId?_of_mem_rowsOfPath hpath id hid
    exact ⟨d.liveRow.marked t, hmem, rfl⟩

theorem Restores.owns_of_broughtBack {lives : List Row} (hr : T.Restores t m lives) (h : T.Keeps t)
    (hrow : row ∈ T.broughtBack t lives (T.restorableDocuments t m))
    (hid : row.documentId? = some id) : T.Owns id := by
  rw [broughtBack, indexPaths_eq] at hrow
  have hindex : (T.move (backMoves t lives)).Edits
      (· ∈ pathRows t (T.restorableDocuments t m)) _ := Edits.putAll (fun _ hr => hr) _
  rcases hindex.new row hrow with hmove | hpath
  · rcases (hr.mem_iff h).1 hmove with hl | ⟨hmem, -⟩
    · exact hr.owns_of_written h (List.mem_append_left _ hl) hid
    · exact ⟨row, hmem, hid⟩
  · exact hr.owns_of_written h (List.mem_append_right _ hpath) hid

end Table

namespace Operation

/-- A request writes rows of documents that have rows already, or of the one that it saves. -/
theorem Outcome.owns {t : Tenant} {T T' : Table} {op : Operation} {row : Row} {id : String}
    (ho : Outcome t T op T') (h : T.Sound t) (hrow : row ∈ T') (hid : row.documentId? = some id) :
    T.Owns id ∨ ∃ d, op = saveDocument d ∧ d.id = id := by
  cases ho with
  | same => exact .inl ⟨row, hrow, hid⟩
  | saved => exact (Table.owns_of_saved h.keeps hrow hid).imp_right fun he => ⟨_, rfl, he⟩
  | removed => exact .inl (Table.owns_of_removed h.keeps (Table.nodup_family t T _) hrow hid)
  | restored _ _ hr => exact .inl (hr.owns_of_broughtBack h.keeps hrow hid)
  | metadata _ hlive he =>
    exact .inl (Table.owns_of_metadata he (Table.owns_of_document? h.keeps hlive) hrow hid)
  | emptied => exact .inl ⟨row, (Table.mem_erase.1 hrow).1, hid⟩

end Operation

namespace Store

theorem saved_of_owns (c : Config) (name : String) (maxBatchSize : Nat) (clock : Clock)
    {t : Tenant} {requests : List Request} (hrequests : ∀ r ∈ requests, r.tenant = t) {id : String}
    (hid : (run c (fresh name maxBatchSize clock) requests).2.table.Owns id) :
    ∃ r ∈ requests, ∃ d, r.operation = .saveDocument d ∧ d.id = id := by
  have hrun : (run c (fresh name maxBatchSize clock) requests).2.table.Sound t ∧
      ∀ m, (run c (fresh name maxBatchSize clock) requests).2.table.Owns m →
        ∃ r ∈ requests, ∃ d, r.operation = .saveDocument d ∧ d.id = m := by
    refine run_induction (I := fun T => T.Sound t ∧ ∀ m, T.Owns m →
      ∃ r ∈ requests, ∃ d, r.operation = .saveDocument d ∧ d.id = m) (fun r hr T n hT => ?_) ?_
    · obtain ⟨hsound, hsaved⟩ := hT
      rw [hrequests r hr]
      refine ⟨(Operation.sound_effect hsound c r.operation).counted n, ?_⟩
      rintro m ⟨row, hrow, hm⟩
      rcases (Operation.outcome_effect hsound c r.operation).owns hsound hrow hm with hown | hnew
      · exact hsaved m hown
      · exact ⟨r, hr, hnew⟩
    · refine ⟨sound_fresh t name maxBatchSize clock, ?_⟩
      rintro m ⟨row, hrow, -⟩
      exact absurd hrow (not_mem_fresh name maxBatchSize clock row)
  exact hrun.2 id hid

end Store

end Cabinet
