import Cabinet.Proofs.Record.Filed
import Cabinet.Proofs.Text.Padded

/-! The places of a tag's rows and their entries in the indexes. Main statements: with keys that lack
the sign that stands before places, a place tells the document and the key of its tag, and each value
of a tag has a row that is found by it. -/

namespace Cabinet

namespace SortKey

theorem tag_append_injective {key key' tail tail' : String} (hkey : '#' ∉ key.toList)
    (hkey' : '#' ∉ key'.toList) (htail : tail = "" ∨ Text.beginsWith delimiter tail)
    (htail' : tail' = "" ∨ Text.beginsWith delimiter tail')
    (h : tag key ++ tail = tag key' ++ tail') : key = key' ∧ tail = tail' := by
  rw [tag, tag, String.append_assoc, String.append_assoc, String.append_right_inj] at h
  rcases htail with rfl | htail
  · rcases htail' with rfl | htail'
    · exact ⟨by simpa using h, rfl⟩
    · obtain ⟨rest, rfl⟩ := Text.beginsWith_iff.1 htail'
      rw [String.append_empty] at h
      exact absurd (h ▸ by simp [delimiter]) hkey
  · obtain ⟨rest, rfl⟩ := Text.beginsWith_iff.1 htail
    rcases htail' with rfl | htail'
    · rw [String.append_empty] at h
      exact absurd (h ▸ by simp [delimiter]) hkey'
    · obtain ⟨rest', rfl⟩ := Text.beginsWith_iff.1 htail'
      rw [← String.append_assoc, ← String.append_assoc] at h
      obtain ⟨rfl, rfl⟩ := Text.delimited_injective hkey hkey' h
      exact ⟨rfl, rfl⟩

end SortKey

def Row.tagText? (row : Row) : Option String := row.key.first.bind fun _ => row.key.second.map (·.sort)

namespace Tag

/-- The key lacks the sign that stands before the place of a value. -/
def IsPlain (g : Tag) : Prop := '#' ∉ g.key.toList

variable {t : Tenant} {g g' : Tag} {row row' : Row}

theorem record_of_mem_rows (h : row ∈ g.rows t) : row.record = .tag g := by
  obtain ⟨key, -, rfl⟩ := List.mem_map.1 h
  rfl

theorem eq_of_mem_rows (h : row ∈ g.rows t) (h' : row ∈ g'.rows t) : g = g' :=
  Record.tag.inj ((record_of_mem_rows h).symm.trans (record_of_mem_rows h'))

theorem mem_rows_iff : row ∈ g.rows t ↔
    (g.value = .keyOnly ∧ row = ⟨{
        primary := ⟨Partition.document t g.documentId, SortKey.tag g.key⟩
        second := some ⟨Partition.tag t g.key, keyOnlyValue⟩ }, .tag g⟩) ∨
      (∃ v, g.value = .single v ∧ row = ⟨g.valueKey t (SortKey.tag g.key) v, .tag g⟩) ∨
      ∃ vs, g.value = .many vs ∧ ∃ i, ∃ hi : i < vs.length,
        row = ⟨g.valueKey t (numberedSort g.key i) vs[i], .tag g⟩ := by
  unfold rows rowKeys
  cases g.value with
  | keyOnly => simp
  | single v => simp
  | many vs =>
    simp only [List.mem_map, List.mem_mapIdx, reduceCtorEq, false_and, exists_false, false_or,
      TagValue.many.injEq, exists_eq_left']
    constructor
    · rintro ⟨key, ⟨i, hi, rfl⟩, rfl⟩
      exact ⟨i, hi, rfl⟩
    · rintro ⟨i, hi, rfl⟩
      exact ⟨_, ⟨i, hi, rfl⟩, rfl⟩

theorem place_of_mem_rows (h : row ∈ g.rows t) :
    ((∀ vs, g.value ≠ .many vs) ∧ row.address.sort = SortKey.tag g.key) ∨
      ∃ vs, g.value = .many vs ∧ ∃ i, ∃ hi : i < vs.length,
        row = ⟨g.valueKey t (numberedSort g.key i) vs[i], .tag g⟩ := by
  rcases mem_rows_iff.1 h with ⟨hvalue, rfl⟩ | ⟨v, hvalue, rfl⟩ | hmany
  · exact .inl ⟨by simp [hvalue], rfl⟩
  · exact .inl ⟨by simp [hvalue], rfl⟩
  · exact .inr hmany

def IsTail (tail : String) : Prop := tail = "" ∨ ∃ i, tail = delimiter ++ Text.padded 4 i

theorem IsTail.beginsWith {tail : String} (h : IsTail tail) :
    tail = "" ∨ Text.beginsWith delimiter tail := by
  rcases h with h | ⟨i, rfl⟩
  · exact .inl h
  · exact .inr (Text.beginsWith_append _ _)

theorem address_of_mem_rows (h : row ∈ g.rows t) : ∃ tail, IsTail tail ∧
    row.address = ⟨Partition.document t g.documentId, SortKey.tag g.key ++ tail⟩ := by
  rcases mem_rows_iff.1 h with ⟨-, rfl⟩ | ⟨v, -, rfl⟩ | ⟨vs, -, i, hi, rfl⟩
  · exact ⟨"", .inl rfl, by simp [Row.address]⟩
  · exact ⟨"", .inl rfl, by simp [Row.address, valueKey]⟩
  · exact ⟨delimiter ++ Text.padded 4 i, .inr ⟨i, rfl⟩,
      by simp [Row.address, valueKey, numberedSort, String.append_assoc]⟩

theorem eq_of_row_address_eq (hg : g.IsPlain) (hg' : g'.IsPlain) (h : row ∈ g.rows t)
    (h' : row' ∈ g'.rows t) (ha : row.address = row'.address) :
    g.documentId = g'.documentId ∧ g.key = g'.key := by
  obtain ⟨tail, htail, hrow⟩ := address_of_mem_rows h
  obtain ⟨tail', htail', hrow'⟩ := address_of_mem_rows h'
  obtain ⟨hp, hs⟩ := Address.mk.inj (hrow.symm.trans (ha.trans hrow'))
  exact ⟨Partition.document_injective hp,
    (SortKey.tag_append_injective hg hg' htail.beginsWith htail'.beginsWith hs).1⟩

theorem row_eq_of_address_eq (h : row ∈ g.rows t) (h' : row' ∈ g.rows t)
    (ha : row.address = row'.address) : row = row' := by
  rcases mem_rows_iff.1 h with ⟨hvalue, rfl⟩ | ⟨v, hvalue, rfl⟩ | ⟨vs, hvalue, i, hi, rfl⟩ <;>
    rcases mem_rows_iff.1 h' with ⟨hvalue', rfl⟩ | ⟨v', hvalue', rfl⟩ | ⟨vs', hvalue', j, hj, rfl⟩ <;>
    rw [hvalue] at hvalue' <;> cases hvalue'
  · rfl
  · have hsort : numberedSort g.key i = numberedSort g.key j := (Address.mk.inj ha).2
    rw [numberedSort, numberedSort, String.append_right_inj] at hsort
    obtain rfl := Text.padded_injective hsort
    rfl

theorem second_of_mem_rows (h : row ∈ g.rows t) :
    ∃ text, row.key.second = some ⟨Partition.tag t g.key, text⟩ := by
  rcases mem_rows_iff.1 h with ⟨-, rfl⟩ | ⟨v, -, rfl⟩ | ⟨vs, -, i, hi, rfl⟩ <;> exact ⟨_, rfl⟩

theorem tagText?_of_first {entry : Address} (h : row ∈ g.rows t) (hfirst : row.key.first = some entry) :
    ∃ v, row.tagText? = some v ∧ entry.partition = Partition.tagValue t g.key v := by
  rcases mem_rows_iff.1 h with ⟨-, rfl⟩ | ⟨v, -, rfl⟩ | ⟨vs, -, i, hi, rfl⟩
  · cases hfirst
  · cases hfirst
    exact ⟨v, rfl, rfl⟩
  · cases hfirst
    exact ⟨_, rfl, rfl⟩

theorem first_of_tagText? {v : String} (h : row ∈ g.rows t) (hv : row.tagText? = some v) :
    ∃ stamp, row.key.first = some ⟨Partition.tagValue t g.key v, stamp⟩ := by
  rcases mem_rows_iff.1 h with ⟨-, rfl⟩ | ⟨w, -, rfl⟩ | ⟨vs, -, i, hi, rfl⟩
  · cases hv
  · cases hv
    exact ⟨_, rfl⟩
  · cases hv
    exact ⟨_, rfl⟩

theorem mem_values_of_tagText? {v : String} (h : row ∈ g.rows t) (hv : row.tagText? = some v) :
    v ∈ g.value.values := by
  rcases mem_rows_iff.1 h with ⟨-, rfl⟩ | ⟨w, hvalue, rfl⟩ | ⟨vs, hvalue, i, hi, rfl⟩
  · cases hv
  · obtain rfl : w = v := Option.some.inj hv
    simp [hvalue, TagValue.values]
  · obtain rfl : vs[i] = v := Option.some.inj hv
    simp [hvalue, TagValue.values]

theorem exists_row_of_value {v : String} (hv : v ∈ g.value.values) (t : Tenant) :
    ∃ row ∈ g.rows t, row.tagText? = some v := by
  cases hvalue : g.value with
  | keyOnly =>
    rw [hvalue] at hv
    cases hv
  | single w =>
    rw [hvalue] at hv
    obtain rfl := List.mem_singleton.1 hv
    exact ⟨_, mem_rows_iff.2 (.inr (.inl ⟨v, hvalue, rfl⟩)), rfl⟩
  | many vs =>
    rw [hvalue] at hv
    obtain ⟨i, hi, rfl⟩ := List.mem_iff_getElem.1 hv
    exact ⟨_, mem_rows_iff.2 (.inr (.inr ⟨vs, hvalue, i, hi, rfl⟩)), rfl⟩

theorem rows_ne_nil (h : g.value ≠ .many []) : g.rows t ≠ [] := by
  unfold rows rowKeys
  cases hvalue : g.value with
  | keyOnly => simp
  | single v => simp
  | many vs =>
    have hvs : vs ≠ [] := fun hnil => h (hnil ▸ hvalue)
    simpa using hvs

end Tag

namespace Row

variable {t : Tenant} {row x : Row} {g : Tag}

theorem record_of_tag? (h : row.tag? = some g) : row.record = .tag g := by
  obtain ⟨key, record⟩ := row
  cases record <;> simp_all [tag?]

theorem IsLive.mem_rows (h : row.IsLive t) (hg : row.tag? = some g) : row ∈ g.rows t := by
  cases h with
  | tag g' hrow =>
    have hrecord := Tag.record_of_mem_rows hrow
    rw [record_of_tag? hg] at hrecord
    exact Record.tag.inj hrecord ▸ hrow
  | document | version | value | folder | leaf => cases hg

theorem IsLive.exists_tagRow (h : row.IsLive t) (hx : x ∈ g.rows t) (ha : row.address = x.address) :
    ∃ g' : Tag, row ∈ g'.rows t ∧ g'.documentId = g.documentId := by
  obtain ⟨tail, -, hplace⟩ := Tag.address_of_mem_rows hx
  obtain ⟨hp, hs⟩ := Address.mk.inj (ha.trans hplace)
  rw [SortKey.tag, String.append_assoc] at hs
  have apart (front tail' : String) (hfrom : Text.beginsWith front SortKey.tags = false)
      (hto : Text.beginsWith SortKey.tags front = false)
      (hsort : row.address.sort = front ++ tail') : False :=
    Text.append_ne_append hfrom hto _ _ (hsort.symm.trans hs)
  cases h with
  | document d h =>
    exact (apart SortKey.document "" (by decide) (by decide) String.append_empty.symm).elim
  | version d h => exact (apart SortKey.versionFront _ (by decide) (by decide) rfl).elim
  | tag g' hrow =>
    obtain ⟨tail', -, hplace'⟩ := Tag.address_of_mem_rows hrow
    exact ⟨g', hrow, Partition.document_injective ((congrArg Address.partition hplace').symm.trans hp)⟩
  | value a =>
    refine (apart SortKey.attributes (a.key ++ delimiter ++ a.value.indexText) (by decide) (by decide)
      ?_).elim
    simp only [Attribute.row, address, Attribute.rowKey, SortKey.attributeKey, String.append_assoc]
  | folder parents name h => exact absurd hp.symm Partition.document_ne_folderKey
  | leaf _ parents name h => exact absurd hp.symm Partition.document_ne_folderKey

theorem IsLive.eq_tag (h : row.IsLive t) {key s : String}
    (hsecond : row.key.second = some ⟨Partition.tag t key, s⟩) :
    ∃ g : Tag, row ∈ g.rows t ∧ g.key = key := by
  cases h with
  | document d h =>
    subst h
    obtain ⟨parent, -, he⟩ := Option.map_eq_some_iff.1 hsecond
    exact absurd (Address.mk.inj he).1.symm Partition.tag_ne_children
  | tag g hrow =>
    obtain ⟨text, htext⟩ := Tag.second_of_mem_rows hrow
    obtain ⟨hkey, -⟩ := Address.mk.inj (Option.some.inj (htext.symm.trans hsecond))
    exact ⟨g, hrow, Partition.tag_injective hkey⟩
  | version | value | folder | leaf => cases hsecond

theorem IsLive.eq_tagValue (h : row.IsLive t) {key v s : String} (hkey : '#' ∉ key.toList)
    (hfirst : row.key.first = some ⟨Partition.tagValue t key v, s⟩) :
    ∃ g : Tag, row ∈ g.rows t ∧ (g.IsPlain → g.key = key ∧ row.tagText? = some v) := by
  cases h with
  | document d h =>
    subst h
    exact absurd (Address.mk.inj (Option.some.inj hfirst)).1.symm Partition.tagValue_ne_day
  | tag g hrow =>
    refine ⟨g, hrow, fun hplain => ?_⟩
    obtain ⟨w, htext, hpartition⟩ := Tag.tagText?_of_first hrow hfirst
    obtain ⟨hown, rfl⟩ := Partition.tagValue_injective hplain hkey hpartition.symm
    exact ⟨hown, htext⟩
  | value a =>
    exact absurd (Address.mk.inj (Option.some.inj hfirst)).1.symm Partition.tagValue_ne_attributeKey
  | leaf _ parents name h =>
    exact absurd (Address.mk.inj (Option.some.inj hfirst)).1.symm Partition.tagValue_ne_leaf
  | version | folder => cases hfirst

end Row

end Cabinet
