import Cabinet.Proofs.Store.History
import Cabinet.Proofs.Store.TagRows
import Cabinet.Proofs.Store.Values

/-! Tags whose values can all be found. Main statement: a request leaves them so exactly when each
restore puts rows together in which the values of each tag have their rows. -/

namespace Cabinet

namespace Row

variable {t : Tenant} {row : Row} {rows rows' : List Row}

/-- Each value of a tag that the rows hold has a row among them. -/
def ShowValues (rows : List Row) : Prop :=
  ∀ row ∈ rows, ∀ g ∈ row.tag?, ∀ v ∈ g.value.values, ∃ r ∈ rows, r.tagText? = some v

instance (rows : List Row) : Decidable (ShowValues rows) :=
  inferInstanceAs (Decidable (∀ row ∈ rows, ∀ g ∈ row.tag?, ∀ v ∈ g.value.values,
    ∃ r ∈ rows, r.tagText? = some v))

/-- The tag that a row holds and the value that it is found by. -/
def tagPart (row : Row) : Option Tag × Option String := (row.tag?, row.tagText?)

theorem showValues_congr (h : ∀ part, part ∈ rows.map tagPart ↔ part ∈ rows'.map tagPart) :
    ShowValues rows ↔ ShowValues rows' := by
  have hparts (rows : List Row) : ShowValues rows ↔ ∀ part ∈ rows.map tagPart, ∀ g ∈ part.1,
      ∀ v ∈ g.value.values, ∃ p ∈ rows.map tagPart, p.2 = some v := by
    simp [ShowValues, tagPart]
  rw [hparts, hparts]
  simp only [h]

theorem showValues_congr_mem (h : ∀ row, row ∈ rows ↔ row ∈ rows') :
    ShowValues rows ↔ ShowValues rows' :=
  showValues_congr fun part => by simp only [List.mem_map, h]

theorem tagPart_marked (t : Tenant) (row : Row) : (row.marked t).tagPart = row.tagPart := by
  obtain ⟨⟨primary, first, second⟩, record⟩ := row
  cases first <;> cases second <;> rfl

end Row

theorem Tag.showValues_rows (g : Tag) (t : Tenant) : Row.ShowValues (g.rows t) := by
  intro row hrow g' hg' v hv
  obtain rfl := Record.tag.inj ((record_of_mem_rows hrow).symm.trans (Row.record_of_tag? hg'))
  exact exists_row_of_value hv t

namespace Table

open Row

variable {t u : Tenant} {T T' : Table} {row : Row} {id m key : String} {ids : List String}
  {lives : List Row}

/-- Under each tag key of a document the values can be found. -/
def TagsShow (t : Tenant) (T : Table) : Prop := ∀ id key, ShowValues (T.tagRows t id key)

def deletedTagRows (T : Table) (t : Tenant) (id key : String) : List Row :=
  (T.deletedPartitionRows t id).filter fun row => row.tag?.any (·.key = key)

/-- The rows of a tag key with the soft-deleted ones, which take the place of live ones. -/
def joinedTagRows (T : Table) (t : Tenant) (id key : String) : List Row :=
  T.deletedTagRows t id key ++ (T.tagRows t id key).filter fun row =>
    row.address.marked t ∉ (T.deletedTagRows t id key).map Row.address

theorem mem_deletedTagRows (h : T.Keeps t) : row ∈ T.deletedTagRows t id key ↔
    row ∈ T ∧ ∃ live, row = live.marked t ∧
      ∃ g : Tag, live ∈ g.rows t ∧ g.documentId = id ∧ g.key = key := by
  rw [deletedTagRows, List.mem_filter, mem_deletedPartitionRows]
  constructor
  · rintro ⟨⟨hmem, hp⟩, hkey⟩
    obtain @⟨live, hlive⟩ : row.IsDeleted t :=
      h.isDeleted_of_partition hmem (hp ▸ Partition.isLive_document.isDeleted_markKey)
    obtain ⟨g, hg, hkey⟩ := (Option.any_eq_true _ _).1 hkey
    have hrow : live ∈ g.rows t := hlive.mem_rows hg
    obtain ⟨tail, -, hplace⟩ := Tag.address_of_mem_rows hrow
    have hp := hlive.partition.markKey_injective Partition.isLive_document hp
    rw [hplace] at hp
    exact ⟨hmem, live, rfl, g, hrow, Partition.document_injective hp, of_decide_eq_true hkey⟩
  · rintro ⟨hmem, live, rfl, g, hrow, rfl, rfl⟩
    obtain ⟨tail, -, hplace⟩ := Tag.address_of_mem_rows hrow
    have hg : (live.marked t).tag? = some g := by
      show live.tag? = some g
      rw [tag?, Tag.record_of_mem_rows hrow]
    rw [hg]
    refine ⟨⟨hmem, ?_⟩, decide_eq_true rfl⟩
    rw [Row.address_marked, hplace]
    rfl

theorem mem_tagRows_remove (h : T.Keeps t) (hids : ids.Nodup) {soft : Bool} :
    row ∈ (T.remove t soft ids).tagRows t m key ↔ m ∉ ids ∧ row ∈ T.tagRows t m key := by
  rw [mem_tagRows_iff (h.remove hids), mem_tagRows_iff h]
  have hkept (g : Tag) (hrow : row ∈ g.rows t) :
      row ∈ T.remove t soft ids ↔ g.documentId ∉ ids ∧ row ∈ T := by
    obtain ⟨tail, -, hplace⟩ := Tag.address_of_mem_rows hrow
    rw [mem_remove_iff h hids (.tag g hrow), and_comm]
    refine and_congr_left fun hmem => not_congr ?_
    exact mem_flatMap_liveRows h hmem (congrArg Address.partition hplace)
  constructor
  · rintro ⟨hmem, g, hrow, rfl, rfl⟩
    obtain ⟨hm, hmem⟩ := (hkept g hrow).1 hmem
    exact ⟨hm, hmem, g, hrow, rfl, rfl⟩
  · rintro ⟨hm, hmem, g, hrow, rfl, rfl⟩
    exact ⟨(hkept g hrow).2 ⟨hm, hmem⟩, g, hrow, rfl, rfl⟩

section

variable (hr : T.Restores t id lives) (h : T.TagLegible t)

include hr h

theorem Restores.mem_lives_of_tag {live : Row} {g : Tag} (hlive : live ∈ g.rows t)
    (hmem : live.marked t ∈ T) : live ∈ lives ↔ g.documentId ∈ T.deletedFamily t id := by
  obtain ⟨tail, -, hplace⟩ := Tag.address_of_mem_rows hlive
  rw [hr.mem_lives (.tag g hlive)]
  refine mem_restorable_of_partition h.keeps hmem ?_
  rw [Row.address_marked, hplace]
  rfl

theorem Restores.mem_tagRows : row ∈ (T.move (backMoves t lives)).tagRows t m key ↔
    (m ∈ T.deletedFamily t id ∧ row.marked t ∈ T ∧
        ∃ g : Tag, row ∈ g.rows t ∧ g.documentId = m ∧ g.key = key) ∨
      row ∈ T.tagRows t m key ∧ ∀ live ∈ lives, row.address ≠ live.address := by
  rw [mem_tagRows_iff (hr.keeps h.keeps), hr.mem_iff h.keeps, mem_tagRows_iff h.keeps]
  constructor
  · rintro ⟨hl | ⟨hmem, -, hapart⟩, g, hrow, rfl, rfl⟩
    · have hmem := hr.mem h.keeps hl
      exact .inl ⟨(hr.mem_lives_of_tag h hrow hmem).1 hl, hmem, g, hrow, rfl, rfl⟩
    · exact .inr ⟨⟨hmem, g, hrow, rfl, rfl⟩, hapart⟩
  · rintro (⟨hm, hmem, g, hrow, rfl, rfl⟩ | ⟨⟨hmem, g, hrow, rfl, rfl⟩, hapart⟩)
    · exact ⟨.inl ((hr.mem_lives_of_tag h hrow hmem).2 hm), g, hrow, rfl, rfl⟩
    · exact ⟨.inr ⟨hmem, not_mem_restorable h.keeps (.tag g hrow), hapart⟩, g, hrow, rfl, rfl⟩

theorem Restores.exists_live_iff {g : Tag} (hrow : row ∈ g.rows t) (hmem : row ∈ T) :
    (∃ live ∈ lives, row.address = live.address) ↔ g.documentId ∈ T.deletedFamily t id ∧
      row.address.marked t ∈ (T.deletedTagRows t g.documentId g.key).map Row.address := by
  constructor
  · rintro ⟨live, hl, ha⟩
    have hlive := hr.isLive live hl
    obtain ⟨g', hrow', hid⟩ := hlive.exists_tagRow hrow ha.symm
    have hmarked : live.marked t ∈ T := hr.mem h.keeps hl
    have hrecord : live.record = .tag g' := Tag.record_of_mem_rows hrow'
    have hplain' : g'.IsPlain := h.plain _ hmarked g' hrecord
    obtain ⟨-, hkey⟩ := Tag.eq_of_row_address_eq hplain' (h.isPlain hmem hrow) hrow' hrow ha.symm
    refine ⟨hid ▸ (hr.mem_lives_of_tag h hrow' hmarked).1 hl, List.mem_map.2 ⟨live.marked t, ?_, ?_⟩⟩
    · exact (mem_deletedTagRows h.keeps).2 ⟨hmarked, live, rfl, g', hrow', hid, hkey⟩
    · rw [Row.address_marked, ha]
  · rintro ⟨hm, hplace⟩
    obtain ⟨r, hr', ha⟩ := List.mem_map.1 hplace
    obtain ⟨hmarked, live, rfl, g', hrow', hid, -⟩ := (mem_deletedTagRows h.keeps).1 hr'
    refine ⟨live, (hr.mem_lives_of_tag h hrow' hmarked).2 (hid ▸ hm), ?_⟩
    exact (Address.marked_injective (Row.IsLive.tag g' hrow').partition
      (Row.IsLive.tag g hrow).partition ha).symm

theorem Restores.showValues_iff (hm : m ∈ T.deletedFamily t id) :
    ShowValues ((T.move (backMoves t lives)).tagRows t m key) ↔
      ShowValues (T.joinedTagRows t m key) := by
  have hkept (row : Row) (hrow : row ∈ T.tagRows t m key) :
      (∀ live ∈ lives, row.address ≠ live.address) ↔
        row.address.marked t ∉ (T.deletedTagRows t m key).map Row.address := by
    obtain ⟨hmem, g, hrows, rfl, rfl⟩ := (mem_tagRows_iff h.keeps).1 hrow
    have hlive := hr.exists_live_iff h hrows hmem
    rw [and_iff_right hm] at hlive
    rw [← hlive]
    push Not
    rfl
  refine showValues_congr fun part => ?_
  simp only [List.mem_map, joinedTagRows, List.mem_append, List.mem_filter, decide_eq_true_iff]
  constructor
  · rintro ⟨row, hrow, rfl⟩
    rcases (hr.mem_tagRows h).1 hrow with ⟨-, hmem, hown⟩ | ⟨hrow, hapart⟩
    · exact ⟨row.marked t, .inl ((mem_deletedTagRows h.keeps).2 ⟨hmem, row, rfl, hown⟩),
        tagPart_marked t row⟩
    · refine ⟨row, .inr ⟨hrow, ?_⟩, rfl⟩
      simpa only [List.mem_map] using (hkept row hrow).1 hapart
  · rintro ⟨row, hrow | ⟨hrow, hplace⟩, rfl⟩
    · obtain ⟨hmem, live, rfl, hown⟩ := (mem_deletedTagRows h.keeps).1 hrow
      exact ⟨live, (hr.mem_tagRows h).2 (.inl ⟨hm, hmem, hown⟩), (tagPart_marked t live).symm⟩
    · refine ⟨row, (hr.mem_tagRows h).2 (.inr ⟨hrow, (hkept row hrow).2 ?_⟩), rfl⟩
      simpa only [List.mem_map] using hplace

theorem Restores.mem_tagRows_of_not_mem (hm : m ∉ T.deletedFamily t id) :
    row ∈ (T.move (backMoves t lives)).tagRows t m key ↔ row ∈ T.tagRows t m key := by
  rw [hr.mem_tagRows h, or_iff_right fun hback => hm hback.1]
  refine and_iff_left_of_imp fun hrow live hl ha => ?_
  obtain ⟨hmem, g, hrows, rfl, rfl⟩ := (mem_tagRows_iff h.keeps).1 hrow
  exact hm ((hr.exists_live_iff h hrows hmem).1 ⟨live, hl, ha⟩).1

end

theorem joinedTagRows_of_nil (hnil : T.deletedTagRows t id key = []) :
    T.joinedTagRows t id key = T.tagRows t id key := by
  simp [joinedTagRows, hnil]

end Table

namespace Operation

open Row

variable {t : Tenant} {T : Table} {c : Config} {id m key : String} {op : Operation}

/-- What a restore must find for the values of tags to be found afterwards: under each key that comes
back, the rows show the values of the tags that they hold. -/
def KeepsTags (t : Tenant) (T : Table) : Operation → Prop
  | restoreDocument id => T.document? t id = none → ∀ m ∈ T.deletedFamily t id,
    ∀ row ∈ T.deletedPartitionRows t m, ∀ g ∈ row.tag?, ShowValues (T.joinedTagRows t m g.key)
  | _ => True

theorem showValues_restoreDocument (h : T.TagLegible t) (hroot : T.document? t id = none)
    (m key : String) : ShowValues (((restoreDocument id).effect c t T).tagRows t m key) ↔
      ShowValues (if m ∈ T.deletedFamily t id then T.joinedTagRows t m key
        else T.tagRows t m key) := by
  obtain ⟨lives, hrestores, hmoves⟩ := Table.exists_restores h.keeps id
  simp only [effect, hmoves, hroot, Option.isSome_none, Bool.false_eq_true, false_or]
  split
  · rename_i hnil
    split
    · rename_i hm
      rw [Table.joinedTagRows_of_nil]
      refine List.eq_nil_iff_forall_not_mem.2 fun row hrow => ?_
      obtain ⟨hmem, live, rfl, g, hlive, rfl, -⟩ := (Table.mem_deletedTagRows h.keeps).1 hrow
      have hback := (hrestores.mem_lives_of_tag h hlive hmem).2 hm
      rw [hrestores.mem_lives (.tag g hlive), hnil] at hback
      cases hback
    · rfl
  · have hindex := Table.edits_indexPaths (T.move (Table.backMoves t lives)) t
      (T.restorableDocuments t id)
    have hsame (row : Row) : row ∈ Table.tagRows _ t m key ↔ _ :=
      hindex.mem_tagRows_iff (hrestores.keeps h.keeps) fun r hr => ⟨hr.1, by rw [hr.kind]; decide⟩
    refine (showValues_congr_mem hsame).trans ?_
    split
    · rename_i hm
      exact hrestores.showValues_iff h hm
    · rename_i hm
      exact showValues_congr_mem fun row => hrestores.mem_tagRows_of_not_mem h hm

theorem tagsShow_restoreDocument_iff (h : T.TagLegible t) (hT : T.TagsShow t) :
    ((restoreDocument id).effect c t T).TagsShow t ↔ (restoreDocument id).KeepsTags t T := by
  cases hroot : T.document? t id with
  | some d =>
    have heffect : (restoreDocument id).effect c t T = T := by simp [effect, hroot]
    rw [heffect]
    exact iff_of_true hT fun hnone => absurd (hroot.symm.trans hnone) (Option.some_ne_none d)
  | none =>
    constructor
    · intro hshow _ m hm row hrow g hg
      have := (showValues_restoreDocument (c := c) h hroot m g.key).1 (hshow m g.key)
      rwa [if_pos hm] at this
    · intro hkeeps m key
      rw [showValues_restoreDocument h hroot]
      split
      · rename_i hm
        by_cases hnil : T.deletedTagRows t m key = []
        · rw [Table.joinedTagRows_of_nil hnil]
          exact hT m key
        · obtain ⟨row, hrow⟩ := List.exists_mem_of_ne_nil _ hnil
          obtain ⟨hdeleted, hkey⟩ := List.mem_filter.1 hrow
          obtain ⟨g, hg, hkey⟩ := (Option.any_eq_true _ _).1 hkey
          obtain rfl := of_decide_eq_true hkey
          exact hkeeps hroot m hm row hdeleted g hg
      · exact hT m key

theorem tagsShow_effect_iff (h : T.TagLegible t) (hT : T.TagsShow t) (c : Config)
    (hplain : op.TagsPlain) : (op.effect c t T).TagsShow t ↔ op.KeepsTags t T := by
  have aside (op : Operation) (hop : op.keepsDocuments) (hkind : .tag ∉ op.kinds) :
      (op.effect c t T).TagsShow t := by
    intro id key
    refine (showValues_congr_mem fun row => ?_).2 (hT id key)
    exact (edits_kinds h.keeps c hop).mem_tagRows_iff h.keeps fun r hr =>
      ⟨hr.1, fun he => hkind (he ▸ hr.2)⟩
  cases op with
  | deleteDocument id soft =>
    refine iff_of_true (fun m key => ?_) trivial
    simp only [effect]
    split
    · exact hT m key
    · intro row hrow
      obtain ⟨hm, hrow⟩ := (Table.mem_tagRows_remove h.keeps (T.nodup_family t id)).1 hrow
      intro g hg v hv
      obtain ⟨r, hr, htext⟩ := hT m key row hrow g hg v hv
      exact ⟨r, (Table.mem_tagRows_remove h.keeps (T.nodup_family t id)).2 ⟨hm, hr⟩, htext⟩
  | restoreDocument id => exact tagsShow_restoreDocument_iff h hT
  | addTags id tags =>
    refine iff_of_true (fun m key => ?_) trivial
    simp only [effect]
    split
    · exact hT m key
    · have hrows (row : Row) : row ∈ (T.setTags t id tags).tagRows t m key ↔ _ :=
        Table.mem_tagRows_setTags h hplain
      by_cases hm : m = id
      · subst hm
        simp only [if_pos] at hrows
        cases hlast : Table.lastTag m key tags with
        | none =>
          rw [hlast] at hrows
          exact (showValues_congr_mem hrows).2 (hT m key)
        | some g =>
          rw [hlast] at hrows
          exact (showValues_congr_mem hrows).2 (g.showValues_rows t)
      · simp only [if_neg hm] at hrows
        exact (showValues_congr_mem hrows).2 (hT m key)
  | deleteTag id key =>
    refine iff_of_true (fun m k => ?_) trivial
    have hrows (row : Row) : row ∈ (T.eraseAll (T.tagRows t id key)).tagRows t m k ↔ _ :=
      Table.mem_tagRows_erased h.keeps
    by_cases hown : m = id ∧ k = key
    · intro row hrow
      exact absurd hown ((hrows row).1 hrow).1
    · simp only [hown, not_false_eq_true, true_and] at hrows
      exact (showValues_congr_mem hrows).2 (hT m k)
  | _ => exact iff_of_true (aside _ rfl (by simp [kinds])) trivial

end Operation

end Cabinet
