import Cabinet.Proofs.Distinct
import Cabinet.Proofs.Store.Keying

/-! The values of documents, by attribute key. Main statements: what each request makes of the values
of a document, live and soft-deleted, as long as no attribute key has the sign that stands before
values. -/

namespace Cabinet

namespace Attribute

/-- The key lacks the sign that stands before values. -/
def IsPlain (a : Attribute) : Prop := '#' ∉ a.key.toList

variable {t : Tenant} {a b : Attribute}

theorem eq_of_address_eq (ha : a.IsPlain) (hb : b.IsPlain)
    (h : (a.row t).address = (b.row t).address) :
    a.documentId = b.documentId ∧ a.key = b.key ∧ a.value.indexText = b.value.indexText := by
  obtain ⟨hp, hs⟩ := Address.mk.inj h
  exact ⟨Partition.document_injective hp, SortKey.attributeKey_append_injective ha hb hs⟩

theorem row_injective (h : a.row t = b.row t) : a = b :=
  Record.attribute.inj (congrArg Row.record h)

/-- The last of the attributes with each text of a value, in order of the texts. -/
def arranged (values : List Attribute) : List Attribute :=
  sortBy (fun a b => a.value.indexText < b.value.indexText)
    (firstsBy (·.value.indexText) values.reverse)

theorem mem_arranged {values : List Attribute} : a ∈ arranged values ↔
    values.reverse.find? (·.value.indexText = a.value.indexText) = some a := by
  rw [arranged, mem_sortBy, mem_firstsBy_iff]

theorem mem_of_mem_arranged {values : List Attribute} (h : a ∈ arranged values) : a ∈ values :=
  List.mem_reverse.1 (List.mem_of_find?_eq_some (mem_arranged.1 h))

theorem mem_texts_arranged {values : List Attribute} {v : String} :
    (∃ a ∈ arranged values, a.value.indexText = v) ↔ v ∈ values.map (·.value.indexText) := by
  rw [List.mem_map]
  constructor
  · rintro ⟨a, ha, rfl⟩
    exact ⟨a, mem_of_mem_arranged ha, rfl⟩
  · rintro ⟨a, ha, rfl⟩
    let same (b : Attribute) : Bool := b.value.indexText = a.value.indexText
    obtain ⟨b, hb⟩ := Option.isSome_iff_exists.1
      (List.find?_isSome (p := same).2 ⟨a, List.mem_reverse.2 ha, decide_eq_true rfl⟩)
    have htext : b.value.indexText = a.value.indexText :=
      of_decide_eq_true (List.find?_some (p := same) hb)
    refine ⟨b, mem_arranged.2 ?_, htext⟩
    rw [htext]
    exact hb

end Attribute

namespace Table

/-- The texts by which the values of an attribute key are looked up. -/
def indexTexts (T : Table) (t : Tenant) (id key : String) : List String :=
  (T.attributesOf t id key).map (·.value.indexText)

def deletedTexts (T : Table) (t : Tenant) (id key : String) : List String :=
  (((T.deletedPartitionRows t id).filterMap Row.attribute?).filter (·.key = key)).map
    (·.value.indexText)

variable {t u : Tenant} {T T' : Table} {P : Row → Prop} {row : Row} {id m key k v : String}
  {a : Attribute}

theorem mem_attributeRows_iff (h : T.Keeps t) : row ∈ T.attributeRows t id key ↔
    ∃ a : Attribute, a.row t ∈ T ∧ a.documentId = id ∧ a.key = key ∧ row = a.row t := by
  unfold attributeRows
  rw [List.mem_filter, mem_rowsFrom]
  constructor
  · rintro ⟨⟨hmem, hp, -⟩, hkey⟩
    obtain ⟨a, ha, hkey⟩ := (Option.any_eq_true _ _).1 hkey
    obtain rfl := (h.isLive_of_document hmem hp).eq_attributeRow ha
    exact ⟨a, hmem, Partition.document_injective hp, of_decide_eq_true hkey, rfl⟩
  · rintro ⟨a, hmem, rfl, rfl, rfl⟩
    exact ⟨⟨hmem, rfl, Text.beginsWith_append _ _⟩, decide_eq_true rfl⟩

theorem mem_attributesOf (h : T.Keeps t) :
    a ∈ T.attributesOf t id key ↔ a.row t ∈ T ∧ a.documentId = id ∧ a.key = key := by
  unfold attributesOf
  rw [List.mem_filterMap]
  constructor
  · rintro ⟨row, hrow, ha⟩
    obtain ⟨b, hmem, hid, hkey, rfl⟩ := (mem_attributeRows_iff h).1 hrow
    obtain rfl : b = a := Option.some.inj ha
    exact ⟨hmem, hid, hkey⟩
  · rintro ⟨hmem, hid, hkey⟩
    exact ⟨a.row t, (mem_attributeRows_iff h).2 ⟨a, hmem, hid, hkey, rfl⟩, rfl⟩

theorem mem_indexTexts (h : T.Keeps t) : v ∈ T.indexTexts t id key ↔ ∃ a : Attribute,
    a.row t ∈ T ∧ a.documentId = id ∧ a.key = key ∧ a.value.indexText = v := by
  unfold indexTexts
  rw [List.mem_map]
  refine exists_congr fun a => ?_
  rw [mem_attributesOf h, and_assoc, and_assoc]

theorem mem_deletedTexts (h : T.Keeps t) : v ∈ T.deletedTexts t id key ↔ ∃ a : Attribute,
    (a.row t).marked t ∈ T ∧ a.documentId = id ∧ a.key = key ∧ a.value.indexText = v := by
  unfold deletedTexts
  rw [List.mem_map]
  refine exists_congr fun a => ?_
  rw [List.mem_filter, List.mem_filterMap, decide_eq_true_iff, ← and_assoc, ← and_assoc]
  refine and_congr_left fun _ => and_congr_left fun _ => ?_
  constructor
  · rintro ⟨row, hrow, ha⟩
    obtain ⟨live, hlive, hp, rfl⟩ := exists_of_deletedPartition h hrow
    obtain rfl := hlive.eq_attributeRow ha
    exact ⟨(mem_deletedPartitionRows.1 hrow).1, Partition.document_injective hp⟩
  · rintro ⟨hrow, rfl⟩
    exact ⟨(a.row t).marked t, mem_deletedPartitionRows.2 ⟨hrow, rfl⟩, rfl⟩

theorem indexTexts_eq_nil (hnone : ∀ row, row ∉ T) (t : Tenant) (id key : String) :
    T.indexTexts t id key = [] := by
  have hkeeps : T.Keeps t := fun row hrow => absurd hrow (hnone row)
  refine List.eq_nil_iff_forall_not_mem.2 fun v hv => ?_
  obtain ⟨a, ha, -⟩ := (mem_indexTexts hkeeps).1 hv
  exact hnone _ ha

theorem deletedTexts_eq_nil (hnone : ∀ row, row ∉ T) (t : Tenant) (id key : String) :
    T.deletedTexts t id key = [] := by
  have hkeeps : T.Keeps t := fun row hrow => absurd hrow (hnone row)
  refine List.eq_nil_iff_forall_not_mem.2 fun v hv => ?_
  obtain ⟨a, ha, -⟩ := (mem_deletedTexts hkeeps).1 hv
  exact hnone _ ha

/-- A document has the same values in both tables. -/
structure SameValues (t : Tenant) (T T' : Table) (id : String) : Prop where
  live : ∀ key v, v ∈ T'.indexTexts t id key ↔ v ∈ T.indexTexts t id key
  deleted : ∀ key v, v ∈ T'.deletedTexts t id key ↔ v ∈ T.deletedTexts t id key

theorem SameValues.refl (t : Tenant) (T : Table) (id : String) : T.SameValues t T id :=
  ⟨fun _ _ => Iff.rfl, fun _ _ => Iff.rfl⟩

theorem indexTexts_congr (h : T.Keeps t) (h' : T'.Keeps t)
    (hrows : ∀ a : Attribute, a.documentId = id → (a.row t ∈ T' ↔ a.row t ∈ T)) :
    v ∈ T'.indexTexts t id key ↔ v ∈ T.indexTexts t id key := by
  rw [mem_indexTexts h, mem_indexTexts h']
  exact exists_congr fun a => and_congr_left fun ha => hrows a ha.1

theorem deletedTexts_congr (h : T.Keeps t) (h' : T'.Keeps t)
    (hrows : ∀ a : Attribute, a.documentId = id →
      ((a.row t).marked t ∈ T' ↔ (a.row t).marked t ∈ T)) :
    v ∈ T'.deletedTexts t id key ↔ v ∈ T.deletedTexts t id key := by
  rw [mem_deletedTexts h, mem_deletedTexts h']
  exact exists_congr fun a => and_congr_left fun ha => hrows a ha.1

namespace Edits

theorem mem_deletedTexts_iff (he : T.Edits P T') (hP : ∀ row, P row → row.IsLive t)
    (h : T.Keeps t) : v ∈ T'.deletedTexts t id key ↔ v ∈ T.deletedTexts t id key := by
  have h' : T'.Keeps t := h.of_edits (fun row hrow => .inl (hP row hrow)) he
  exact deletedTexts_congr h h' fun a _ => he.deleted_iff hP (.mark (.value a))

theorem attributeRow_iff (he : T.Edits P T')
    (hP : ∀ row, P row → row.IsLive t ∧ row.record.kind ≠ .attribute) (a : Attribute) :
    a.row t ∈ T' ↔ a.row t ∈ T := by
  refine he.kept _ fun r hr ha => ?_
  obtain ⟨hlive, hkind⟩ := hP r hr
  obtain ⟨b, rfl, -⟩ := hlive.exists_attributeRow ha
  exact hkind rfl

theorem sameValues (he : T.Edits P T')
    (hP : ∀ row, P row → row.IsLive t ∧ row.record.kind ≠ .attribute) (h : T.Keeps t) :
    T.SameValues t T' id := by
  have hlive : ∀ row, P row → row.IsLive t := fun row hrow => (hP row hrow).1
  have h' : T'.Keeps t := h.of_edits (fun row hrow => .inl (hlive row hrow)) he
  exact ⟨fun key v => indexTexts_congr h h' fun a _ => he.attributeRow_iff hP a,
    fun key v => he.mem_deletedTexts_iff hlive h⟩

theorem sameValues_of_apart (he : T.Edits (Row.IsFiled u) T') (hapart : u.Apart t)
    (h : T.Keeps t) : T.SameValues t T' id := by
  have h' := h.of_edits_apart hapart he
  exact ⟨fun key v => indexTexts_congr h h' fun a _ => he.mem_iff_of_apart hapart (.inl (.value a)),
    fun key v => deletedTexts_congr h h' fun a _ =>
      he.mem_iff_of_apart hapart (.inr (.mark (.value a)))⟩

end Edits

theorem Edits.sameValues_of_tags (he : T.Edits (Row.IsMetadataOfKind t m .tag) T') (h : T.Keeps t) :
    T.SameValues t T' id :=
  he.sameValues (fun row hrow => ⟨hrow.1.1, by simp [hrow.2]⟩) h

theorem Edits.sameValues_of_nodes (he : T.Edits (Row.IsNode t) T') (h : T.Keeps t) :
    T.SameValues t T' id :=
  he.sameValues (fun row hrow => ⟨hrow.1, by simp [hrow.kind]⟩) h

theorem sameValues_saved (h : T.Keeps t) (d : Document) : T.SameValues t (T.saved t d) id :=
  (edits_saved h d).sameValues (fun row hrow => hrow.elim
    (fun hrecord => ⟨hrecord.1, by simp [hrecord.kind]⟩)
    (fun hnode => ⟨hnode.1, by simp [hnode.kind]⟩)) h

/-- In its partitions a tenant comes across its own rows only, and each place of an attribute is for
one value. -/
structure Legible (t : Tenant) (T : Table) : Prop where
  keeps : T.Keeps t
  plain : T.AttributesHave Attribute.IsPlain

/-- Attributes of one key of a document, whose key is plain. -/
def AreFor (id key : String) (values : List Attribute) : Prop :=
  ∀ a ∈ values, a.documentId = id ∧ a.key = key ∧ a.IsPlain

theorem edits_setAttribute (h : T.Keeps t) {values : List Attribute} (hvalues : AreFor id key values) :
    T.Edits (Row.IsMetadataOfKind t id .attribute) (T.setAttribute t id key values) :=
  (edits_eraseAttributeRows h).trans (edits_putAttributes (fun a ha => (hvalues a ha).1) _)

theorem Legible.setAttribute (h : T.Legible t) {values : List Attribute}
    (hvalues : AreFor id key values) : (T.setAttribute t id key values).Legible t where
  keeps := h.keeps.of_edits (fun _ hrow => hrow.1.isFiled) (edits_setAttribute h.keeps hvalues)
  plain := (h.plain.eraseAll _).putAttributes fun a ha => (hvalues a ha).2.2

theorem lastAt_rows_iff {values : List Attribute} (hvalues : AreFor id key values) (ha : a.IsPlain) :
    lastAt (values.map (·.row t)) (a.row t).address = some (a.row t) ↔
      (a.documentId = id ∧ a.key = key) ∧ a ∈ Attribute.arranged values := by
  have hfind : lastAt (values.map (·.row t)) (a.row t).address = some (a.row t) ↔
      values.reverse.find? (fun b => (b.row t).address = (a.row t).address) = some a := by
    unfold lastAt
    rw [← List.map_reverse, List.find?_map, Option.map_eq_some_iff]
    exact ⟨fun ⟨b, hb, hrow⟩ => Attribute.row_injective hrow ▸ hb, fun ha => ⟨a, ha, rfl⟩⟩
  rw [hfind, Attribute.mem_arranged]
  -- among the values of the key the place is told by the text
  have hplace (hkey : a.documentId = id ∧ a.key = key) :
      values.reverse.find? (fun b => (b.row t).address = (a.row t).address) =
        values.reverse.find? (·.value.indexText = a.value.indexText) := by
    rw [← List.head?_filter, ← List.head?_filter]
    refine congrArg List.head? (List.filter_congr fun b hb => ?_)
    obtain ⟨hid, hkey', hplain⟩ := hvalues b (List.mem_reverse.1 hb)
    refine decide_eq_decide.2 ⟨fun he => (Attribute.eq_of_address_eq hplain ha he).2.2, fun he => ?_⟩
    simp only [Attribute.row, Row.address, Attribute.rowKey, hid, hkey', hkey.1, hkey.2, he]
  constructor
  · intro hlast
    obtain ⟨hid, hkey, -⟩ := hvalues a (List.mem_reverse.1 (List.mem_of_find?_eq_some hlast))
    exact ⟨⟨hid, hkey⟩, hplace ⟨hid, hkey⟩ ▸ hlast⟩
  · rintro ⟨hkey, hlast⟩
    rw [hplace hkey]
    exact hlast

theorem row_mem_setAttribute (h : T.Legible t) {values : List Attribute}
    (hvalues : AreFor id key values) {a : Attribute} (ha : a.IsPlain) :
    a.row t ∈ T.setAttribute t id key values ↔
      if a.documentId = id ∧ a.key = key then a ∈ Attribute.arranged values else a.row t ∈ T := by
  have hget : a.row t ∈ T.setAttribute t id key values ↔
      (lastAt (values.map (·.row t)) (a.row t).address).or
        ((T.eraseAll (T.attributeRows t id key)).get? (a.row t).address) = some (a.row t) := by
    rw [← get?_putAll, get?_eq_some_iff, and_iff_left rfl]
    rfl
  have herased : (T.eraseAll (T.attributeRows t id key)).get? (a.row t).address =
      some (a.row t) ↔ a.row t ∈ T ∧ ¬(a.documentId = id ∧ a.key = key) := by
    rw [get?_eq_some_iff, and_iff_left rfl,
      mem_eraseAll_of_subset fun row hrow => (mem_attributeRows h.keeps hrow).1]
    refine and_congr_right fun hmem => not_congr ?_
    rw [mem_attributeRows_iff h.keeps]
    constructor
    · rintro ⟨b, -, hid, hkey, he⟩
      obtain rfl := Attribute.row_injective he
      exact ⟨hid, hkey⟩
    · exact fun ⟨hid, hkey⟩ => ⟨a, hmem, hid, hkey, rfl⟩
  have hlastAt := lastAt_rows_iff (t := t) hvalues ha
  rw [hget]
  cases hlast : lastAt (values.map (·.row t)) (a.row t).address with
  | some row =>
    -- only attributes of the key are at the places that are written
    obtain ⟨hrow, haddress⟩ := mem_of_lastAt hlast
    obtain ⟨b, hb, rfl⟩ := List.mem_map.1 hrow
    obtain ⟨hid, hkey, hplain⟩ := hvalues b hb
    obtain ⟨hid', hkey', -⟩ := Attribute.eq_of_address_eq hplain ha haddress
    have hown : a.documentId = id ∧ a.key = key := ⟨hid'.symm.trans hid, hkey'.symm.trans hkey⟩
    rw [hlast, and_iff_right hown] at hlastAt
    rw [Option.some_or, if_pos hown, hlastAt]
  | none =>
    rw [hlast, iff_false_left nofun] at hlastAt
    rw [Option.none_or, herased]
    split
    · rename_i hkey
      exact iff_of_false (fun hmem => hmem.2 hkey) fun hmem => hlastAt ⟨hkey, hmem⟩
    · rename_i hkey
      exact and_iff_left hkey

theorem mem_attributesOf_setAttribute (h : T.Legible t) {values : List Attribute}
    (hvalues : AreFor id key values) :
    a ∈ (T.setAttribute t id key values).attributesOf t m k ↔
      if m = id ∧ k = key then a ∈ Attribute.arranged values else a ∈ T.attributesOf t m k := by
  have hset := h.setAttribute hvalues
  rw [mem_attributesOf hset.keeps, mem_attributesOf h.keeps]
  split
  · rename_i hkey
    obtain ⟨rfl, rfl⟩ := hkey
    constructor
    · rintro ⟨hmem, hkey⟩
      rwa [row_mem_setAttribute h hvalues (hset.plain _ hmem a rfl), if_pos hkey] at hmem
    · intro ha
      obtain ⟨hid, hkey, hplain⟩ := hvalues a (Attribute.mem_of_mem_arranged ha)
      rw [row_mem_setAttribute h hvalues hplain, if_pos ⟨hid, hkey⟩]
      exact ⟨ha, hid, hkey⟩
  · rename_i hkey
    refine and_congr_left ?_
    rintro ⟨rfl, rfl⟩
    constructor
    · intro hmem
      rwa [row_mem_setAttribute h hvalues (hset.plain _ hmem a rfl), if_neg hkey] at hmem
    · intro hmem
      rwa [row_mem_setAttribute h hvalues (h.plain _ hmem a rfl), if_neg hkey]

theorem mem_indexTexts_setAttribute (h : T.Legible t) {values : List Attribute}
    (hvalues : AreFor id key values) :
    v ∈ (T.setAttribute t id key values).indexTexts t m k ↔
      if m = id ∧ k = key then v ∈ values.map (·.value.indexText) else v ∈ T.indexTexts t m k := by
  unfold indexTexts
  rw [List.mem_map]
  simp only [mem_attributesOf_setAttribute h hvalues]
  split
  · exact Attribute.mem_texts_arranged
  · exact List.mem_map.symm

theorem mem_indexTexts_setAttribute_of_ne (h : T.Legible t) {values : List Attribute}
    (hvalues : AreFor id key values) (hne : ¬(m = id ∧ k = key)) :
    v ∈ (T.setAttribute t id key values).indexTexts t m k ↔ v ∈ T.indexTexts t m k := by
  rw [mem_indexTexts_setAttribute h hvalues, if_neg hne]

theorem mem_attributesOf_setAttributes (h : T.Legible t) {attributes : List Attribute}
    (hnew : ∀ a ∈ attributes, a.documentId = id ∧ a.IsPlain) :
    a ∈ (T.setAttributes t id attributes).attributesOf t m k ↔
      if m = id ∧ k ∈ attributeKeys attributes then
        a ∈ Attribute.arranged (attributes.filter (·.key = k))
      else a ∈ T.attributesOf t m k := by
  have hfor (key : String) : AreFor id key (attributes.filter (·.key = key)) := by
    intro a ha
    obtain ⟨hmem, hkey⟩ := List.mem_filter.1 ha
    exact ⟨(hnew a hmem).1, of_decide_eq_true hkey, (hnew a hmem).2⟩
  unfold setAttributes
  generalize attributeKeys attributes = keys
  induction keys generalizing T with
  | nil => simp
  | cons key keys ih =>
    refine (ih (h.setAttribute (hfor key))).trans ?_
    rw [mem_attributesOf_setAttribute h (hfor key)]
    simp only [List.mem_cons, and_or_left]
    by_cases hrest : m = id ∧ k ∈ keys
    · rw [if_pos hrest, if_pos (.inr hrest)]
    by_cases hkey : m = id ∧ k = key
    · rw [if_neg hrest, if_pos hkey, if_pos (.inl hkey), hkey.2]
    · rw [if_neg hrest, if_neg hkey, if_neg (not_or.2 ⟨hkey, hrest⟩)]

theorem mem_indexTexts_setAttributes (h : T.Legible t) {attributes : List Attribute}
    (hnew : ∀ a ∈ attributes, a.documentId = id ∧ a.IsPlain) :
    v ∈ (T.setAttributes t id attributes).indexTexts t m k ↔
      if m = id ∧ k ∈ attributeKeys attributes then
        v ∈ (attributes.filter (·.key = k)).map (·.value.indexText)
      else v ∈ T.indexTexts t m k := by
  unfold indexTexts
  rw [List.mem_map]
  simp only [mem_attributesOf_setAttributes h hnew]
  split
  · exact Attribute.mem_texts_arranged
  · exact List.mem_map.symm

section

variable {ids : List String} {soft : Bool}

theorem Keeps.remove (h : T.Keeps t) (hids : ids.Nodup) : (T.remove t soft ids).Keeps t :=
  h.of_edits (fun _ hrow => hrow) (edits_remove h soft hids)

theorem mem_indexTexts_remove (h : T.Keeps t) (hids : ids.Nodup) :
    v ∈ (T.remove t soft ids).indexTexts t m k ↔ m ∉ ids ∧ v ∈ T.indexTexts t m k := by
  rw [mem_indexTexts (h.remove hids), mem_indexTexts h]
  constructor
  · rintro ⟨a, ha, rfl, rfl, rfl⟩
    obtain ⟨hmem, hnot⟩ := (mem_remove_iff h hids (.value a)).1 ha
    rw [mem_flatMap_liveRows h hmem rfl] at hnot
    exact ⟨hnot, a, hmem, rfl, rfl, rfl⟩
  · rintro ⟨hm, a, hmem, rfl, rfl, rfl⟩
    rw [← mem_flatMap_liveRows h hmem rfl] at hm
    exact ⟨a, (mem_remove_iff h hids (.value a)).2 ⟨hmem, hm⟩, rfl, rfl, rfl⟩

theorem mem_deletedTexts_hardRemove (h : T.Keeps t) (hids : ids.Nodup) :
    v ∈ (T.remove t false ids).deletedTexts t m k ↔ v ∈ T.deletedTexts t m k := by
  have hrows := areLive_liveRows h ids
  rw [remove_hard_eq h hids]
  exact (Edits.eraseAll (fun row hrow => (hrows row hrow).2) T).mem_deletedTexts_iff
    (fun _ hlive => hlive) h

theorem mem_deletedTexts_softRemove (h : T.Legible t) (hids : ids.Nodup) :
    v ∈ (T.remove t true ids).deletedTexts t m k ↔
      v ∈ T.deletedTexts t m k ∨ m ∈ ids ∧ v ∈ T.indexTexts t m k := by
  have hrows := areLive_liveRows h.keeps ids
  have hmem (row : Row) : row ∈ T.remove t true ids ↔
      (∃ r ∈ ids.flatMap (T.liveRows t), row = r.marked t) ∨
        row ∈ T ∧ row ∉ ids.flatMap (T.liveRows t) ∧
          ∀ r ∈ ids.flatMap (T.liveRows t), row.address ≠ r.address.marked t := by
    rw [remove_soft_eq h.keeps hids]
    exact mem_softDelete hrows (nodup_flatMap_liveRows h.keeps hids)
  rw [mem_deletedTexts (h.keeps.remove hids), mem_deletedTexts h.keeps, mem_indexTexts h.keeps]
  constructor
  · rintro ⟨a, ha, rfl, rfl, rfl⟩
    rcases (hmem _).1 ha with ⟨r, hr, he⟩ | ⟨ha, -⟩
    · obtain ⟨hrow, hlive⟩ := hrows r hr
      obtain rfl := (Row.IsLive.value a).marked_injective hlive he
      exact .inr ⟨(mem_flatMap_liveRows h.keeps hrow rfl).1 hr, a, hrow, rfl, rfl, rfl⟩
    · exact .inl ⟨a, ha, rfl, rfl, rfl⟩
  · rintro (⟨a, ha, rfl, rfl, rfl⟩ | ⟨hm, a, ha, rfl, rfl, rfl⟩)
    · by_cases hover : ∃ r ∈ ids.flatMap (T.liveRows t),
          ((a.row t).marked t).address = r.address.marked t
      · -- a value with the same text takes the place of this one
        obtain ⟨r, hr, haddress⟩ := hover
        obtain ⟨hrow, hlive⟩ := hrows r hr
        have hsame := Address.marked_injective (Row.IsLive.value a).partition hlive.partition
          haddress
        obtain ⟨b, rfl, -⟩ := hlive.exists_attributeRow hsame.symm
        obtain ⟨hid, hkey, htext⟩ :=
          Attribute.eq_of_address_eq (h.plain _ hrow b rfl) (h.plain _ ha a rfl) hsame.symm
        exact ⟨b, (hmem _).2 (.inl ⟨b.row t, hr, rfl⟩), hid, hkey, htext⟩
      · refine ⟨a, (hmem _).2 (.inr ⟨ha, fun hr => ?_, fun r hr he => hover ⟨r, hr, he⟩⟩), rfl,
          rfl, rfl⟩
        exact (hrows _ hr).2.ne_marked (.value a) rfl
    · have hr := (mem_flatMap_liveRows h.keeps ha rfl).2 hm
      exact ⟨a, (hmem _).2 (.inl ⟨a.row t, hr, rfl⟩), rfl, rfl, rfl⟩

end

section

variable {lives : List Row}

/-- What was soft-deleted comes to the values that a live document has. -/
theorem Restores.mem_indexTexts (hr : T.Restores t id lives) (h : T.Legible t) :
    v ∈ (T.move (backMoves t lives)).indexTexts t m k ↔
      v ∈ T.indexTexts t m k ∨ m ∈ T.deletedFamily t id ∧ v ∈ T.deletedTexts t m k := by
  have hlives (a : Attribute) (ha : (a.row t).marked t ∈ T) :
      a.row t ∈ lives ↔ a.documentId ∈ T.deletedFamily t id := by
    rw [hr.mem_lives (.value a)]
    exact mem_restorable_of_partition h.keeps ha rfl
  rw [Table.mem_indexTexts (hr.keeps h.keeps), Table.mem_indexTexts h.keeps, mem_deletedTexts h.keeps]
  constructor
  · rintro ⟨a, ha, rfl, rfl, rfl⟩
    rcases (hr.mem_iff h.keeps).1 ha with hl | ⟨ha, -⟩
    · have hmarked := hr.mem h.keeps hl
      exact .inr ⟨(hlives a hmarked).1 hl, a, hmarked, rfl, rfl, rfl⟩
    · exact .inl ⟨a, ha, rfl, rfl, rfl⟩
  · rintro (⟨a, ha, rfl, rfl, rfl⟩ | ⟨hm, a, ha, rfl, rfl, rfl⟩)
    · by_cases hover : ∃ live ∈ lives, (a.row t).address = live.address
      · obtain ⟨live, hl, haddress⟩ := hover
        obtain ⟨b, rfl, -⟩ := (hr.isLive live hl).exists_attributeRow haddress.symm
        obtain ⟨hid, hkey, htext⟩ := Attribute.eq_of_address_eq
          (h.plain _ (hr.mem h.keeps hl) b rfl) (h.plain _ ha a rfl) haddress.symm
        exact ⟨b, (hr.mem_iff h.keeps).2 (.inl hl), hid, hkey, htext⟩
      · have hnot : a.row t ∉ T.restorable t id := not_mem_restorable h.keeps (.value a)
        have hapart : ∀ live ∈ lives, (a.row t).address ≠ live.address :=
          fun live hl he => hover ⟨live, hl, he⟩
        exact ⟨a, (hr.mem_iff h.keeps).2 (.inr ⟨ha, hnot, hapart⟩), rfl, rfl, rfl⟩
    · exact ⟨a, (hr.mem_iff h.keeps).2 (.inl ((hlives a ha).2 hm)), rfl, rfl, rfl⟩

theorem Restores.mem_deletedTexts (hr : T.Restores t id lives) (h : T.Keeps t) :
    v ∈ (T.move (backMoves t lives)).deletedTexts t m k ↔
      v ∈ T.deletedTexts t m k ∧ m ∉ T.deletedFamily t id := by
  rw [Table.mem_deletedTexts (hr.keeps h), Table.mem_deletedTexts h]
  constructor
  · rintro ⟨a, ha, rfl, rfl, rfl⟩
    obtain ⟨hmem, hnot⟩ := hr.mem_of_deleted h ha rfl
    exact ⟨⟨a, hmem, rfl, rfl, rfl⟩, hnot⟩
  · rintro ⟨⟨a, ha, rfl, rfl, rfl⟩, hnot⟩
    refine ⟨a, (hr.mem_iff h).2 (.inr ⟨ha, ?_, fun live hl he => ?_⟩), rfl, rfl, rfl⟩
    · rw [mem_restorable_of_partition h ha rfl]
      exact hnot
    · exact (hr.isLive live hl).address_ne_marked (.value a) he.symm

theorem Restores.sameValues_broughtBack (hr : T.Restores t id lives) (h : T.Keeps t)
    (documents : List Document) :
    (T.move (backMoves t lives)).SameValues t (T.broughtBack t lives documents) m :=
  (edits_indexPaths _ t documents).sameValues_of_nodes (hr.keeps h)

end

end Table

end Cabinet
