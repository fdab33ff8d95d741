import Cabinet.Proofs.Store.Reached

/-! What holds of every table that requests of one tenant lead to. Main statement: metadata has its
document, live or soft-deleted, and a live document with a soft-deleted record has a live parent. -/

namespace Cabinet

namespace Table

def IsDeletedDocument (t : Tenant) (T : Table) (id : String) : Prop :=
  ∃ d : Document, d.liveRow.marked t ∈ T ∧ d.tenant = t ∧ d.id = id

structure Sound (t : Tenant) (T : Table) : Prop where
  filed : ∀ row ∈ T, row.IsFiled t
  /-- What is in the partition of a document has a live document. -/
  owned : ∀ row ∈ T, ∀ id, row.address.partition = Partition.document t id →
    (T.document? t id).isSome
  deletedOwned : ∀ row ∈ T, ∀ id,
    row.address.partition = SoftDelete.markKey t (Partition.document t id) →
      T.IsDeletedDocument t id
  parents : ∀ d : Document, d.liveRow ∈ T → d.tenant = t → ∀ p, d.parent = some p →
    (T.document? t p).isSome ∨ ¬T.IsDeletedDocument t d.id

variable {t : Tenant} {T T' : Table} {P : Row → Prop} {row : Row} {id m p : String}

theorem Sound.keeps (h : T.Sound t) : T.Keeps t := fun row hrow => .inl (h.filed row hrow)

theorem Sound.isMarked_eq_false_iff (h : T.Sound t) (hrow : row ∈ T) :
    SoftDelete.isMarked t row.address.partition = false ↔ row.IsLive t := by
  constructor
  · intro hunmarked
    apply (h.filed row hrow).resolve_right
    intro hdeleted
    rw [hdeleted.isMarked] at hunmarked
    cases hunmarked
  · exact Row.IsLive.isMarked

theorem Sound.counted (h : T.Sound t) (n : Nat) : Table.Sound t { T with batchCalls := n } :=
  ⟨h.filed, h.owned, h.deletedOwned, h.parents⟩

theorem Edits.deleted_iff (he : T.Edits P T') (hP : ∀ row, P row → row.IsLive t)
    (hrow : row.IsDeleted t) : row ∈ T' ↔ row ∈ T :=
  he.kept row fun r hr ha =>
    (hP r hr).partition.ne_of_isDeleted hrow.partition (congrArg Address.partition ha)

theorem Edits.isDeletedDocument_iff (he : T.Edits P T') (hP : ∀ row, P row → row.IsLive t)
    (id : String) : T'.IsDeletedDocument t id ↔ T.IsDeletedDocument t id :=
  exists_congr fun d => and_congr_left fun h =>
    he.deleted_iff hP (.mark (.document d h.1))

theorem Sound.of_edits (h : T.Sound t) (hP : ∀ row, P row → row.IsLive t) (he : T.Edits P T')
    (owned : ∀ row ∈ T', ∀ id, row.address.partition = Partition.document t id →
      (T'.document? t id).isSome)
    (parents : ∀ d : Document, d.liveRow ∈ T' → d.tenant = t → ∀ p, d.parent = some p →
      (T'.document? t p).isSome ∨ ¬T.IsDeletedDocument t d.id) : T'.Sound t where
  filed row hrow := (he.new row hrow).elim (h.filed row) fun hr => .inl (hP row hr)
  owned := owned
  deletedOwned row hrow id hp := by
    rw [he.isDeletedDocument_iff hP]
    rcases he.new row hrow with hrow | hrow
    · exact h.deletedOwned row hrow id hp
    · exact absurd hp ((hP row hrow).partition.ne_of_isDeleted
        Partition.isLive_document.isDeleted_markKey)
  parents d hd ht p hp := by
    rw [he.isDeletedDocument_iff hP]
    exact parents d hd ht p hp

theorem Edits.liveRow_iff_of_aside (he : T.Edits (Row.IsAside t) T') {d : Document}
    (ht : d.tenant = t) : d.liveRow ∈ T' ↔ d.liveRow ∈ T := by
  apply he.kept _
  intro r hr
  rw [Document.address_liveRow ht]
  exact hr.address_ne d.id

theorem Edits.document?_of_aside (he : T.Edits (Row.IsAside t) T') (h : T.Keeps t)
    (id : String) : T'.document? t id = T.document? t id := by
  have hkeeps : T'.Keeps t := h.of_edits (fun row hrow => .inl hrow.1) he
  apply Option.ext
  intro d
  rw [document?_eq_some_iff hkeeps, document?_eq_some_iff h]
  exact and_congr_left fun hd => he.liveRow_iff_of_aside hd.1

/-- Tags, attributes, folders and leaves come and go; new ones in the partition of a document only
when it is live. -/
theorem Sound.of_aside (h : T.Sound t) (he : T.Edits (Row.IsAside t) T')
    (hnew : ∀ row ∈ T', row ∉ T → ∀ id, row.address.partition = Partition.document t id →
      (T.document? t id).isSome) : T'.Sound t := by
  refine h.of_edits (fun row hrow => hrow.1) he (fun row hrow id hp => ?_) fun d hd ht p hp => ?_
  · rw [he.document?_of_aside h.keeps]
    by_cases hmem : row ∈ T
    · exact h.owned row hmem id hp
    · exact hnew row hrow hmem id hp
  · rw [he.document?_of_aside h.keeps]
    exact h.parents d ((he.liveRow_iff_of_aside ht).1 hd) ht p hp

theorem Sound.of_nodes (h : T.Sound t) (he : T.Edits (Row.IsNode t) T') : T'.Sound t := by
  refine h.of_aside (he.mono fun _ hrow => hrow.isAside) fun row hrow hnot id hp => ?_
  exact absurd hp (((he.new row hrow).resolve_left hnot).partition_ne id)

theorem Sound.of_metadata (h : T.Sound t) (he : T.Edits (Row.IsMetadataOf t id) T')
    (hlive : (T.document? t id).isSome) : T'.Sound t := by
  refine h.of_aside (he.mono fun _ hrow => hrow.isAside) fun row hrow hnot m hp => ?_
  have hmetadata := (he.new row hrow).resolve_left hnot
  have hid : m = id := Partition.document_injective (hp.symm.trans hmetadata.2.1)
  rw [hid]
  exact hlive

theorem liveRow_injective {d e : Document} (h : d.liveRow = e.liveRow) : d = e :=
  Record.document.inj (congrArg Row.record h)

theorem liveRow_mem_saved (h : T.Keeps t) {d e : Document} (ht : e.tenant = t) :
    e.liveRow ∈ T.saved t d ↔ e = T.successor t d ∨ e.id ≠ d.id ∧ e.liveRow ∈ T := by
  have hput : e.liveRow ∈ T.saved t d ↔ e.liveRow = (T.successor t d).liveRow ∨
      e.liveRow ∈ (T.cleared t d).indexPath t d.id d.path ∧
        e.liveRow.address ≠ (T.successor t d).liveRow.address := mem_put
  have haddress : e.liveRow.address = (T.successor t d).liveRow.address ↔ e.id = d.id := by
    rw [Document.address_liveRow ht, Document.address_liveRow (T.successor_tenant t d),
      successor_id]
    constructor
    · intro he
      exact Partition.document_injective (congrArg Address.partition he)
    · intro hid
      rw [hid]
  have hpartition : e.liveRow.address.partition = Partition.document t e.id :=
    congrArg Address.partition (Document.address_liveRow ht)
  have hindex := (edits_indexPath (T.cleared t d) t d.id d.path).mono
    fun row (hrow : row.IsNode t) => (.inr hrow : row.IsRecordOf t d.id ∨ row.IsNode t)
  have hedits := (edits_cleared h d).trans hindex
  rw [hput, ne_eq, haddress, and_comm]
  refine or_congr ⟨liveRow_injective, fun he => congrArg _ he⟩ (and_congr_right fun hid => ?_)
  apply hedits.kept _
  intro r hr ha
  have hp : r.address.partition = Partition.document t e.id := by
    rw [ha]
    exact hpartition
  rcases hr with hr | hr
  · exact hid (Partition.document_injective (hp.symm.trans hr.2.1))
  · exact hr.partition_ne e.id hp

theorem document?_saved (h : T.Keeps t) (d : Document) (id : String) :
    (T.saved t d).document? t id =
      if id = d.id then some (T.successor t d) else T.document? t id := by
  have hkeeps : (T.saved t d).Keeps t :=
    h.of_edits (fun row hrow => .inl (hrow.elim And.left And.left)) (edits_saved h d)
  apply Option.ext
  intro e
  rw [document?_eq_some_iff hkeeps]
  by_cases hid : id = d.id
  · rw [if_pos hid, Option.some.injEq]
    constructor
    · rintro ⟨hrow, ht, he⟩
      exact ((liveRow_mem_saved h ht).1 hrow).elim Eq.symm fun hrest => absurd (he.trans hid) hrest.1
    · rintro rfl
      have ht := T.successor_tenant t d
      exact ⟨(liveRow_mem_saved h ht).2 (.inl rfl), ht, (T.successor_id t d).trans hid.symm⟩
  · rw [if_neg hid, document?_eq_some_iff h]
    apply and_congr_left
    intro he
    rw [liveRow_mem_saved h he.1]
    constructor
    · rintro (rfl | hrest)
      · exact absurd (he.2.symm.trans (T.successor_id t d)) hid
      · exact hrest.2
    · intro hrow
      exact .inr ⟨fun hd => hid (he.2.symm.trans hd), hrow⟩

theorem saveFault?_eq_none {d : Document} (h : T.saveFault? t d = none) (hp : d.parent = some p) :
    p ≠ d.id ∧ (T.document? t p).isSome := by
  unfold saveFault? at h
  rw [hp] at h
  split at h
  · cases h
  · rename_i hissues
    simp only at h
    split at h
    · rename_i hlive
      refine ⟨?_, hlive⟩
      rintro rfl
      rw [not_not, Document.issues, List.append_eq_nil_iff] at hissues
      simp [onlyIf, hp] at hissues
    · cases h

theorem Sound.saved (h : T.Sound t) {d : Document} (hfault : T.saveFault? t d = none) :
    (T.saved t d).Sound t := by
  have hlive {id : String} (hid : (T.document? t id).isSome) :
      ((T.saved t d).document? t id).isSome := by
    rw [document?_saved h.keeps]
    split
    · rfl
    · exact hid
  have hself : ((T.saved t d).document? t d.id).isSome := by
    rw [document?_saved h.keeps, if_pos rfl]
    rfl
  refine h.of_edits (fun row hrow => hrow.elim And.left And.left) (edits_saved h.keeps d)
    (fun row hrow id hp => ?_) fun e he ht p hp => ?_
  · rcases (edits_saved h.keeps d).new row hrow with hrow | hrow | hrow
    · exact hlive (h.owned row hrow id hp)
    · obtain rfl : id = d.id := Partition.document_injective (hp.symm.trans hrow.2.1)
      exact hself
    · exact absurd hp (hrow.partition_ne id)
  · rcases (liveRow_mem_saved h.keeps ht).1 he with rfl | ⟨-, he⟩
    · -- the parent of the saved document has been looked for
      rw [successor_parent] at hp
      exact .inl (hlive (saveFault?_eq_none hfault hp).2)
    · exact (h.parents e he ht p hp).imp_left hlive

variable {ids : List String} {soft : Bool}

theorem mem_flatMap_liveRows (h : T.Keeps t) (hrow : row ∈ T)
    (hp : row.address.partition = Partition.document t m) :
    row ∈ ids.flatMap (T.liveRows t) ↔ m ∈ ids := by
  rw [List.mem_flatMap]
  constructor
  · rintro ⟨m', hm', hrow'⟩
    obtain ⟨-, hlive, hid⟩ := mem_liveRows h hrow'
    have hm : row.documentId? = some m := (hlive.documentId?_of_partition hp).1
    obtain rfl : m' = m := Option.some.inj (hid.symm.trans hm)
    exact hm'
  · intro hm
    exact ⟨m, hm, mem_liveRows_of_partition hrow hp⟩

theorem mem_remove_iff (h : T.Keeps t) (hids : ids.Nodup) (hlive : row.IsLive t) :
    row ∈ T.remove t soft ids ↔ row ∈ T ∧ row ∉ ids.flatMap (T.liveRows t) := by
  have hrows := areLive_liveRows h ids
  cases soft with
  | false =>
    rw [remove_hard_eq h hids]
    exact mem_eraseAll_of_subset fun r hr => (hrows r hr).1
  | true =>
    rw [remove_soft_eq h hids]
    exact mem_softDelete_of_isLive hrows (nodup_flatMap_liveRows h hids) hlive

theorem liveRow_mem_remove (h : T.Keeps t) (hids : ids.Nodup) {d : Document} (ht : d.tenant = t) :
    d.liveRow ∈ T.remove t soft ids ↔ d.liveRow ∈ T ∧ d.id ∉ ids := by
  rw [mem_remove_iff h hids (.document d ht)]
  have hpartition := congrArg Address.partition (Document.address_liveRow ht)
  exact and_congr_right fun hrow => not_congr (mem_flatMap_liveRows h hrow hpartition)

theorem document?_remove (h : T.Keeps t) {soft : Bool} {ids : List String} (hids : ids.Nodup)
    (m : String) : (T.remove t soft ids).document? t m =
      if m ∈ ids then none else T.document? t m := by
  have hkeeps : (T.remove t soft ids).Keeps t :=
    h.of_edits (fun _ hrow => hrow) (edits_remove h soft hids)
  apply Option.ext
  intro d
  rw [document?_eq_some_iff hkeeps]
  split
  · rename_i hm
    refine iff_of_false ?_ nofun
    rintro ⟨hrow, ht, rfl⟩
    exact ((liveRow_mem_remove h hids ht).1 hrow).2 hm
  · rename_i hm
    rw [document?_eq_some_iff h]
    refine and_congr_left fun hd => ?_
    rw [liveRow_mem_remove h hids hd.1, hd.2]
    exact and_iff_left hm

theorem isSome_document?_remove (h : T.Keeps t) (hids : ids.Nodup) (hm : m ∉ ids)
    (hlive : (T.document? t m).isSome) : ((T.remove t soft ids).document? t m).isSome := by
  rw [document?_remove h hids, if_neg hm]
  exact hlive

theorem Sound.isDeletedDocument_soft (h : T.Sound t) (hids : ids.Nodup) :
    (T.remove t true ids).IsDeletedDocument t m ↔
      T.IsDeletedDocument t m ∨ m ∈ ids ∧ (T.document? t m).isSome := by
  have hrows := areLive_liveRows h.keeps ids
  have hmem {row : Row} : row ∈ T.softDelete t (ids.flatMap (T.liveRows t)) ↔ _ :=
    mem_softDelete hrows (nodup_flatMap_liveRows h.keeps hids)
  rw [remove_soft_eq h.keeps hids]
  constructor
  · rintro ⟨d, hd, rfl, rfl⟩
    rcases hmem.1 hd with ⟨r, hr, he⟩ | ⟨hrow, -⟩
    · obtain rfl := (Row.IsLive.document d rfl).marked_injective (hrows r hr).2 he
      have hid := (mem_flatMap_liveRows h.keeps (hrows _ hr).1 rfl).1 hr
      exact .inr ⟨hid, (isSome_document?_iff h.keeps).2 ⟨d, (hrows _ hr).1, rfl, rfl⟩⟩
    · exact .inl ⟨d, hrow, rfl, rfl⟩
  · rintro (⟨d, hd, rfl, rfl⟩ | ⟨hid, hlive⟩)
    · by_cases hover : ∃ r ∈ ids.flatMap (T.liveRows d.tenant),
          (d.liveRow.marked d.tenant).address = r.address.marked d.tenant
      · -- another record of the document takes the place of this one
        obtain ⟨r, hr, ha⟩ := hover
        have ha := Address.marked_injective (Row.IsLive.document d rfl).partition
          (hrows r hr).2.partition ha
        obtain ⟨e, ht, hid, rfl⟩ := (hrows r hr).2.eq_liveRow ha.symm
        exact ⟨e, hmem.2 (.inl ⟨e.liveRow, hr, rfl⟩), ht, hid⟩
      · refine ⟨d, hmem.2 (.inr ⟨hd, fun hr => ?_, fun r hr ha => hover ⟨r, hr, ha⟩⟩), rfl, rfl⟩
        exact (hrows _ hr).2.ne_marked (.document d rfl) rfl
    · obtain ⟨d, hrow, rfl, rfl⟩ := (isSome_document?_iff h.keeps).1 hlive
      have hr := (mem_flatMap_liveRows h.keeps hrow rfl).2 hid
      exact ⟨d, hmem.2 (.inl ⟨d.liveRow, hr, rfl⟩), rfl, rfl⟩

theorem Sound.isDeletedDocument_hard (h : T.Sound t) (hids : ids.Nodup) :
    (T.remove t false ids).IsDeletedDocument t m ↔ T.IsDeletedDocument t m := by
  rw [remove_hard_eq h.keeps hids]
  refine Edits.isDeletedDocument_iff (Edits.eraseAll (fun r hr => ?_) T) (fun _ hr => hr) m
  exact (areLive_liveRows h.keeps ids r hr).2

theorem Sound.isDeletedDocument_remove (h : T.Sound t) (hids : ids.Nodup)
    (hm : (T.remove t soft ids).IsDeletedDocument t m) : T.IsDeletedDocument t m ∨ m ∈ ids := by
  cases soft with
  | false => exact .inl ((h.isDeletedDocument_hard hids).1 hm)
  | true => exact ((h.isDeletedDocument_soft hids).1 hm).imp_right And.left

theorem Sound.isDeletedDocument_of_mem_remove (h : T.Sound t) (hids : ids.Nodup)
    (hrow : row ∈ T.remove t soft ids)
    (hp : row.address.partition = SoftDelete.markKey t (Partition.document t m)) :
    (T.remove t soft ids).IsDeletedDocument t m := by
  have hrows := areLive_liveRows h.keeps ids
  cases soft with
  | false =>
    rw [h.isDeletedDocument_hard hids]
    rw [remove_hard_eq h.keeps hids] at hrow
    exact h.deletedOwned row (mem_eraseAll.1 hrow).1 m hp
  | true =>
    rw [h.isDeletedDocument_soft hids]
    rw [remove_soft_eq h.keeps hids,
      mem_softDelete hrows (nodup_flatMap_liveRows h.keeps hids)] at hrow
    rcases hrow with ⟨r, hr, rfl⟩ | ⟨hrow, -⟩
    · obtain ⟨hmem, hlive⟩ := hrows r hr
      have hp := hlive.partition.markKey_injective Partition.isLive_document hp
      exact .inr ⟨(mem_flatMap_liveRows h.keeps hmem hp).1 hr, h.owned r hmem m hp⟩
    · exact .inl (h.deletedOwned row hrow m hp)

theorem Sound.remove (h : T.Sound t) (id : String) (soft : Bool) :
    (T.remove t soft (T.family t id)).Sound t := by
  have hnodup := nodup_family t T id
  have hedits := edits_remove h.keeps soft hnodup
  have hkeeps : (T.remove t soft (T.family t id)).Keeps t :=
    h.keeps.of_edits (fun _ hrow => hrow) hedits
  refine ⟨fun row hrow => (hedits.new row hrow).elim (h.filed row) fun hr => hr,
    fun row hrow m hp => ?_, fun row hrow m hp => ?_, fun d hd ht p hp => ?_⟩
  · have hlive : row.IsLive t := hkeeps.isLive_of_document hrow hp
    obtain ⟨hrow, hnot⟩ := (mem_remove_iff h.keeps hnodup hlive).1 hrow
    rw [mem_flatMap_liveRows h.keeps hrow hp] at hnot
    exact isSome_document?_remove h.keeps hnodup hnot (h.owned row hrow m hp)
  · exact h.isDeletedDocument_of_mem_remove hnodup hrow hp
  · obtain ⟨hd, hnot⟩ := (liveRow_mem_remove h.keeps hnodup ht).1 hd
    -- a document whose parent goes is of the family, and goes itself
    have hparent : p ∉ T.family t id := by
      intro hmem
      rw [mem_family h.keeps] at hmem hnot
      exact hnot (hmem.tail ⟨d, hd, ht, hp, rfl⟩)
    refine (h.parents d hd ht p hp).imp (isSome_document?_remove h.keeps hnodup hparent) ?_
    intro hdeleted hafter
    exact (h.isDeletedDocument_remove hnodup hafter).elim hdeleted hnot

variable {lives : List Row}

namespace Restores

theorem keeps (hr : T.Restores t id lives) (h : T.Keeps t) : (T.move (backMoves t lives)).Keeps t :=
  h.of_edits (fun _ hrow => hrow) hr.edits

theorem isSome_document? (hr : T.Restores t id lives) (h : T.Keeps t)
    (hlive : (T.document? t m).isSome) : ((T.move (backMoves t lives)).document? t m).isSome := by
  have hkeeps := hr.keeps h
  obtain ⟨d, hrow, rfl, rfl⟩ := (isSome_document?_iff h).1 hlive
  rw [isSome_document?_iff hkeeps]
  by_cases hover : ∃ live ∈ lives, d.liveRow.address = live.address
  · obtain ⟨live, hl, ha⟩ := hover
    obtain ⟨e, ht, hid, rfl⟩ := (hr.isLive live hl).eq_liveRow ha.symm
    exact ⟨e, (hr.mem_iff h).2 (.inl hl), ht, hid⟩
  · have hnot : d.liveRow ∉ T.restorable d.tenant id := not_mem_restorable h (.document d rfl)
    have hapart : ∀ live ∈ lives, d.liveRow.address ≠ live.address :=
      fun live hl ha => hover ⟨live, hl, ha⟩
    exact ⟨d, (hr.mem_iff h).2 (.inr ⟨hrow, hnot, hapart⟩), rfl, rfl⟩

theorem mem_of_deleted (hr : T.Restores t id lives) (h : T.Keeps t)
    (hrow : row ∈ T.move (backMoves t lives))
    (hp : row.address.partition = SoftDelete.markKey t (Partition.document t m)) :
    row ∈ T ∧ m ∉ T.deletedFamily t id := by
  rcases (hr.mem_iff h).1 hrow with hl | ⟨hmem, hnot, -⟩
  · have hdeleted : Partition.IsDeleted t row.address.partition :=
      hp ▸ Partition.isLive_document.isDeleted_markKey
    exact absurd rfl ((hr.isLive row hl).partition.ne_of_isDeleted hdeleted)
  · rw [mem_restorable_of_partition h hmem hp] at hnot
    exact ⟨hmem, hnot⟩

theorem isDeletedDocument_iff (hr : T.Restores t id lives) (h : T.Keeps t) :
    (T.move (backMoves t lives)).IsDeletedDocument t m ↔
      T.IsDeletedDocument t m ∧ m ∉ T.deletedFamily t id := by
  constructor
  · rintro ⟨d, hd, rfl, rfl⟩
    obtain ⟨hmem, hnot⟩ := hr.mem_of_deleted h hd rfl
    exact ⟨⟨d, hmem, rfl, rfl⟩, hnot⟩
  · rintro ⟨⟨d, hd, rfl, rfl⟩, hnot⟩
    have hrestorable : d.liveRow.marked d.tenant ∉ T.restorable d.tenant id := by
      rw [mem_restorable_of_partition h hd rfl]
      exact hnot
    refine ⟨d, (hr.mem_iff h).2 (.inr ⟨hd, hrestorable, fun live hl ha => ?_⟩), rfl, rfl⟩
    have hne := (hr.isLive live hl).address_ne_marked (.document d rfl)
    exact hne ha.symm

end Restores

theorem Sound.restored (h : T.Sound t) (hr : T.Restores t id lives) :
    (T.move (backMoves t lives)).Sound t := by
  have hkeeps := hr.keeps h.keeps
  refine ⟨fun row hrow => (hr.edits.new row hrow).elim (h.filed row) fun hfiled => hfiled,
    fun row hrow m hp => ?_, fun row hrow m hp => ?_, fun d hd ht p hp => ?_⟩
  · rcases (hr.mem_iff h.keeps).1 hrow with hl | ⟨hmem, -⟩
    · -- the record of the document was soft-deleted with the row, so it comes back with it
      have hmarked : row.marked t ∈ T := hr.mem h.keeps hl
      have hpartition : (row.marked t).address.partition =
          SoftDelete.markKey t (Partition.document t m) := by
        rw [← hp]
        rfl
      have hfamily : m ∈ T.deletedFamily t id := by
        rw [← mem_restorable_of_partition h.keeps hmarked hpartition]
        exact (hr.mem_lives (hr.isLive row hl)).1 hl
      obtain ⟨d, hd, rfl, rfl⟩ := h.deletedOwned _ hmarked m hpartition
      have hrestorable := (mem_restorable_of_partition h.keeps hd rfl).2 hfamily
      have hback : d.liveRow ∈ lives := (hr.mem_lives (.document d rfl)).2 hrestorable
      rw [isSome_document?_iff hkeeps]
      exact ⟨d, (hr.mem_iff h.keeps).2 (.inl hback), rfl, rfl⟩
    · exact hr.isSome_document? h.keeps (h.owned row hmem m hp)
  · obtain ⟨hmem, hnot⟩ := hr.mem_of_deleted h.keeps hrow hp
    exact (hr.isDeletedDocument_iff h.keeps).2 ⟨h.deletedOwned row hmem m hp, hnot⟩
  · rw [hr.isDeletedDocument_iff h.keeps]
    rcases (hr.mem_iff h.keeps).1 hd with hl | ⟨hmem, -⟩
    · -- what comes back leaves no soft-deleted record behind
      right
      rintro ⟨-, hnot⟩
      obtain ⟨m, hm, hid⟩ := hr.family _ hl
      obtain rfl : d.id = m := Option.some.inj hid
      exact hnot hm
    · exact (h.parents d hmem ht p hp).imp (hr.isSome_document? h.keeps) fun hnot hdeleted =>
        hnot hdeleted.1

end Table

namespace Operation

variable {t : Tenant} {T : Table}

theorem metadataFault?_eq_none {id : String} {issues : List Issue}
    (h : T.metadataFault? t id issues = none) : (T.document? t id).isSome := by
  unfold Table.metadataFault? at h
  split at h
  · cases h
  · split at h
    · assumption
    · cases h

def isMetadata : Operation → Bool
  | addTags _ _ | deleteTag _ _ | setAttributes _ _ | deleteAttribute _ _ => true
  | _ => false

/-- What a request can make of a sound table: nothing new, or one of these changes. -/
inductive Outcome (t : Tenant) (T : Table) : Operation → Table → Prop
  | same (op : Operation) : Outcome t T op T
  | saved {d : Document} (hfault : T.saveFault? t d = none) :
    Outcome t T (saveDocument d) (T.saved t d)
  | removed {id : String} {soft : Bool} (hlive : (T.document? t id).isSome) :
    Outcome t T (deleteDocument id soft) (T.remove t soft (T.family t id))
  | restored {id : String} {lives : List Row} (hroot : T.document? t id = none)
    (hne : T.restorable t id ≠ []) (hr : T.Restores t id lives) :
    Outcome t T (restoreDocument id) (T.broughtBack t lives (T.restorableDocuments t id))
  | metadata {op : Operation} {id : String} {T' : Table} (hop : op.isMetadata)
    (hlive : (T.document? t id).isSome) (he : T.Edits (Row.IsMetadataOf t id) T') :
    Outcome t T op T'
  | emptied {path : String} {a : Address} (ha : T.emptyFolder t path = .ok a) :
    Outcome t T (deleteEmptyFolder path) (T.erase a)

theorem outcome_of_rows (h : T.Sound t) {op : Operation} (hop : op.isMetadata) {id : String}
    (rows : List Row) {T' : Table} (he : T.Edits (Row.IsMetadataOf t id) T')
    (hrows : ∀ row ∈ rows, row ∈ T ∧ row.address.partition = Partition.document t id)
    (hnil : rows = [] → T' = T) : Outcome t T op T' := by
  by_cases hempty : rows = []
  · rw [hnil hempty]
    exact .same op
  · obtain ⟨row, hrow⟩ := List.exists_mem_of_ne_nil _ hempty
    obtain ⟨hmem, hp⟩ := hrows row hrow
    exact .metadata hop (h.owned row hmem id hp) he

theorem outcome_effect (h : T.Sound t) (c : Config) (op : Operation) :
    Outcome t T op (op.effect c t T) := by
  cases op with
  | saveDocument d =>
    simp only [effect]
    split
    · exact .same _
    · rename_i hfault
      exact .saved (Option.not_isSome_iff_eq_none.1 hfault)
  | deleteDocument id soft =>
    simp only [effect]
    split
    · exact .same _
    · rename_i hlive
      rw [Option.isNone_iff_eq_none] at hlive
      exact .removed (Option.isSome_iff_ne_none.2 hlive)
  | restoreDocument id =>
    obtain ⟨lives, hrestores, hmoves⟩ := Table.exists_restores h.keeps id
    simp only [effect, hmoves]
    split
    · exact .same _
    · rename_i hroot
      obtain ⟨hlive, hne⟩ := not_or.1 hroot
      exact .restored (Option.not_isSome_iff_eq_none.1 hlive) hne hrestores
  | addTags id tags =>
    simp only [effect]
    split
    · exact .same _
    · rename_i hfault
      have hlive := metadataFault?_eq_none (Option.not_isSome_iff_eq_none.1 hfault)
      exact .metadata rfl hlive (Table.edits_setTags h.keeps tags).metadata
  | deleteTag id key =>
    refine outcome_of_rows h rfl (T.tagRows t id key) (Table.edits_eraseTagRows h.keeps).metadata
      (fun row hrow => ?_) fun hnil => ?_
    · obtain ⟨hmem, -, hp, -⟩ := Table.mem_tagRows h.keeps hrow
      exact ⟨hmem, hp⟩
    · simp [effect, hnil, Table.eraseAll]
  | setAttributes id attributes =>
    simp only [effect]
    split
    · exact .same _
    · rename_i hfault
      have hlive := metadataFault?_eq_none (Option.not_isSome_iff_eq_none.1 hfault)
      exact .metadata rfl hlive (Table.edits_attributesSet h.keeps c attributes).metadata
  | deleteAttribute id key =>
    refine outcome_of_rows h rfl (T.attributeRows t id key)
      (Table.edits_attributeDeleted h.keeps c).metadata (fun row hrow => ?_) fun hnil => ?_
    · obtain ⟨hmem, -, hp, -⟩ := Table.mem_attributeRows h.keeps hrow
      exact ⟨hmem, hp⟩
    · simp [effect, Table.attributeDeleted, hnil, Table.eraseAll]
  | deleteEmptyFolder path =>
    simp only [effect]
    split
    · rename_i a ha
      exact .emptied ha
    · exact .same _
  | findDocument | findDocuments | findDocumentVersion | listDocumentVersions | findChildDocuments
  | listDocumentsByDate | listDeletedDocuments | findTags | findTag | searchTags | findAttributes
  | findAttribute | search | listFolder | folderOfDocument => exact .same _

theorem Outcome.sound {op : Operation} {T' : Table} (ho : Outcome t T op T') (h : T.Sound t) :
    T'.Sound t := by
  cases ho with
  | same => exact h
  | saved hfault => exact h.saved hfault
  | removed => exact h.remove _ _
  | restored _ _ hr => exact (h.restored hr).of_nodes (Table.edits_indexPaths _ t _)
  | metadata _ hlive he => exact h.of_metadata he hlive
  | emptied ha => exact h.of_nodes (Table.edits_emptyFolder h.keeps ha)

theorem sound_effect (h : T.Sound t) (c : Config) (op : Operation) : (op.effect c t T).Sound t :=
  (outcome_effect h c op).sound h

end Operation

namespace Store

variable {t : Tenant} {c : Config} {requests : List Request} {s : Store}

theorem sound_fresh (t : Tenant) (name : String) (maxBatchSize : Nat) (clock : Clock) :
    (fresh name maxBatchSize clock).table.Sound t where
  filed row hrow := absurd hrow (not_mem_fresh name maxBatchSize clock row)
  owned row hrow := absurd hrow (not_mem_fresh name maxBatchSize clock row)
  deletedOwned row hrow := absurd hrow (not_mem_fresh name maxBatchSize clock row)
  parents d hd := absurd hd (not_mem_fresh name maxBatchSize clock d.liveRow)

theorem sound_step {r : Request} (hr : r.tenant = t) (h : s.table.Sound t) :
    (s.step c r).2.table.Sound t := by
  obtain ⟨n, hn⟩ := table_step c s r
  rw [hn, hr]
  exact (Operation.sound_effect h c r.operation).counted n

theorem sound_run (hrequests : ∀ r ∈ requests, r.tenant = t) (h : s.table.Sound t) :
    (run c s requests).2.table.Sound t := by
  refine run_induction (fun r hr T n hT => ?_) h
  rw [hrequests r hr]
  exact (Operation.sound_effect hT c r.operation).counted n

end Store

end Cabinet
