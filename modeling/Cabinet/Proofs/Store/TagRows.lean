import Cabinet.Proofs.Record.TagPlaces
import Cabinet.Proofs.Store.Keying

/-! The rows of tags in a table. Main statement: setting a tag leaves under its key its own rows and
under other keys those that were there. -/

namespace Cabinet

theorem Tag.value_ne_of_issues {g : Tag} (h : g.issues = []) : g.value ≠ .many [] := by
  intro hvalue
  simp [issues, hvalue, onlyIf] at h

namespace Table

variable {t u : Tenant} {T T' : Table} {P : Row → Prop} {row : Row} {id m key k : String} {g : Tag}
  {tags : List Tag}

theorem mem_tagRows_iff (h : T.Keeps t) : row ∈ T.tagRows t id key ↔
    row ∈ T ∧ ∃ g : Tag, row ∈ g.rows t ∧ g.documentId = id ∧ g.key = key := by
  unfold tagRows
  rw [List.mem_filter, mem_rowsFrom]
  constructor
  · rintro ⟨⟨hmem, hp, -⟩, hkey⟩
    obtain ⟨g, hg, hkey⟩ := (Option.any_eq_true _ _).1 hkey
    have hrow := (h.isLive_of_document hmem hp).mem_rows hg
    obtain ⟨tail, -, hplace⟩ := Tag.address_of_mem_rows hrow
    rw [hplace] at hp
    exact ⟨hmem, g, hrow, Partition.document_injective hp, of_decide_eq_true hkey⟩
  · rintro ⟨hmem, g, hrow, rfl, rfl⟩
    obtain ⟨tail, -, hplace⟩ := Tag.address_of_mem_rows hrow
    have hg : row.tag? = some g := by rw [Row.tag?, Tag.record_of_mem_rows hrow]
    rw [hplace, hg]
    exact ⟨⟨hmem, rfl, Text.beginsWith_append _ _⟩, decide_eq_true rfl⟩

theorem tagRows_congr (h : T.Keeps t) (h' : T'.Keeps t)
    (hrows : ∀ (g : Tag) (row : Row), row ∈ g.rows t → (row ∈ T' ↔ row ∈ T)) :
    row ∈ T'.tagRows t id key ↔ row ∈ T.tagRows t id key := by
  rw [mem_tagRows_iff h, mem_tagRows_iff h']
  refine and_congr_left ?_
  rintro ⟨g, hrow, -⟩
  exact hrows g row hrow

theorem Edits.tagRow_iff (he : T.Edits P T')
    (hP : ∀ row, P row → row.IsLive t ∧ row.record.kind ≠ .tag) (hrow : row ∈ g.rows t) :
    row ∈ T' ↔ row ∈ T := by
  refine he.kept _ fun r hr ha => ?_
  obtain ⟨hlive, hkind⟩ := hP r hr
  obtain ⟨g', hr', -⟩ := hlive.exists_tagRow hrow ha
  exact hkind (Row.kind_of_mem_rows hr')

theorem Edits.mem_tagRows_iff (he : T.Edits P T') (h : T.Keeps t)
    (hP : ∀ row, P row → row.IsLive t ∧ row.record.kind ≠ .tag) :
    row ∈ T'.tagRows t id key ↔ row ∈ T.tagRows t id key :=
  tagRows_congr h (h.of_edits (fun r hr => .inl (hP r hr).1) he) fun _ _ hrow => he.tagRow_iff hP hrow

theorem Edits.mem_tagRows_iff_of_apart (he : T.Edits (Row.IsFiled u) T') (h : T.Keeps t)
    (hother : u.Apart t) : row ∈ T'.tagRows t id key ↔ row ∈ T.tagRows t id key :=
  tagRows_congr h (h.of_edits_apart hother he) fun g _ hrow =>
    he.mem_iff_of_apart hother (.inl (.tag g hrow))

def TagsHave (P : Tag → Prop) (T : Table) : Prop :=
  ∀ row ∈ T, ∀ g, row.record = .tag g → P g

/-- In its partitions a tenant comes across its own rows only, and each place of a tag is for one
key. -/
structure TagLegible (t : Tenant) (T : Table) : Prop where
  keeps : T.Keeps t
  plain : T.TagsHave Tag.IsPlain

theorem TagLegible.isPlain (h : T.TagLegible t) (hmem : row ∈ T) (hrow : row ∈ g.rows t) :
    g.IsPlain := h.plain row hmem g (Tag.record_of_mem_rows hrow)

theorem edits_setTag (h : T.Keeps t) (g : Tag) :
    T.Edits (Row.IsMetadataOfKind t g.documentId .tag) (T.setTag t g) :=
  (edits_eraseTagRows h).trans (Edits.putAll
    (fun _ hrow => ⟨Row.isMetadataOf_tag rfl hrow, Row.kind_of_mem_rows hrow⟩) _)

theorem TagLegible.setTag (h : T.TagLegible t) (hg : g.IsPlain) : (T.setTag t g).TagLegible t where
  keeps := h.keeps.of_edits (fun _ hrow => hrow.1.isFiled) (edits_setTag h.keeps g)
  plain := by
    have hplain : T.RecordsHave fun record => ∀ g, record = .tag g → g.IsPlain := h.plain
    refine (hplain.eraseAll _).putAll fun row hrow g' hg' => ?_
    rw [Tag.record_of_mem_rows hrow] at hg'
    exact Record.tag.inj hg' ▸ hg

theorem mem_setTag (h : T.TagLegible t) (hg : g.IsPlain) : row ∈ T.setTag t g ↔
    row ∈ g.rows t ∨ row ∈ T ∧ row ∉ T.tagRows t g.documentId g.key := by
  have herased : row ∈ T.eraseAll (T.tagRows t g.documentId g.key) ↔
      row ∈ T ∧ row ∉ T.tagRows t g.documentId g.key :=
    mem_eraseAll_of_subset fun x hx => ((mem_tagRows_iff h.keeps).1 hx).1
  by_cases hplace : ∃ x ∈ g.rows t, x.address = row.address
  · obtain ⟨x, hx, ha⟩ := hplace
    -- what stood at a place of the key was a row of the key
    have hgone : ¬(row ∈ T ∧ row ∉ T.tagRows t g.documentId g.key) := by
      rintro ⟨hmem, hnot⟩
      have hp : row.address.partition = Partition.document t g.documentId := by
        obtain ⟨tail, -, hx⟩ := Tag.address_of_mem_rows hx
        rw [← ha, hx]
      obtain ⟨g', hrow, hid⟩ := (h.keeps.isLive_of_document hmem hp).exists_tagRow hx ha.symm
      obtain ⟨-, hkey⟩ := Tag.eq_of_row_address_eq hg (h.isPlain hmem hrow) hx hrow ha
      exact hnot ((mem_tagRows_iff h.keeps).2 ⟨hmem, g', hrow, hid, hkey.symm⟩)
    rw [or_iff_left hgone, ← herased] at *
    have hput : row ∈ T.setTag t g ↔ (lastAt (g.rows t) row.address).or
        ((T.eraseAll (T.tagRows t g.documentId g.key)).get? row.address) = some row := by
      rw [← get?_putAll, get?_eq_some_iff, and_iff_left rfl]
      rfl
    obtain ⟨y, hy⟩ : ∃ y, lastAt (g.rows t) row.address = some y :=
      Option.isSome_iff_exists.1 (List.find?_isSome.2 ⟨x, List.mem_reverse.2 hx, decide_eq_true ha⟩)
    obtain ⟨hmem, haddress⟩ := mem_of_lastAt hy
    rw [hput, hy, Option.some_or, Option.some.injEq]
    exact ⟨fun he => he ▸ hmem, fun hrow => Tag.row_eq_of_address_eq hmem hrow haddress⟩
  · have hnot : row ∉ g.rows t := fun hrow => hplace ⟨row, hrow, rfl⟩
    have same : ∀ x ∈ g.rows t, x.address = row.address → x = row :=
      fun x hx ha => absurd ⟨x, hx, ha⟩ hplace
    have hput : row ∈ T.setTag t g ↔ _ := mem_putAll same
    rw [hput, herased, or_comm]

/-- Under the key of a tag that is set stand its rows, under other keys those that were there. -/
theorem mem_tagRows_setTag (h : T.TagLegible t) (hg : g.IsPlain) :
    row ∈ (T.setTag t g).tagRows t m k ↔
      if m = g.documentId ∧ k = g.key then row ∈ g.rows t else row ∈ T.tagRows t m k := by
  rw [mem_tagRows_iff (h.setTag hg).keeps, mem_setTag h hg]
  split
  · rename_i hown
    obtain ⟨rfl, rfl⟩ := hown
    constructor
    · rintro ⟨hrow | ⟨hmem, hnot⟩, hkey⟩
      · exact hrow
      · exact absurd ((mem_tagRows_iff h.keeps).2 ⟨hmem, hkey⟩) hnot
    · exact fun hrow => ⟨.inl hrow, g, hrow, rfl, rfl⟩
  · rename_i hother
    have hmem : row ∈ T.tagRows t m k ↔ _ := mem_tagRows_iff h.keeps
    rw [hmem]
    refine and_congr_left ?_
    rintro ⟨g', hrow, rfl, rfl⟩
    have hnot : row ∉ g.rows t := by
      intro hown
      obtain rfl := Tag.eq_of_mem_rows hrow hown
      exact hother ⟨rfl, rfl⟩
    have hkept : row ∉ T.tagRows t g.documentId g.key := by
      intro hown
      obtain ⟨-, g'', hrow', hid, hkey⟩ := (mem_tagRows_iff h.keeps).1 hown
      obtain rfl := Tag.eq_of_mem_rows hrow hrow'
      exact hother ⟨hid, hkey⟩
    rw [or_iff_right hnot, and_iff_left hkept]

theorem mem_tagRows_erased (h : T.Keeps t) :
    row ∈ (T.eraseAll (T.tagRows t id key)).tagRows t m k ↔
      ¬(m = id ∧ k = key) ∧ row ∈ T.tagRows t m k := by
  have h' : (T.eraseAll (T.tagRows t id key)).Keeps t :=
    h.of_edits (fun _ hrow => hrow.1.isFiled) (edits_eraseTagRows h)
  have hrows : row ∈ T.tagRows t m k ↔ _ := mem_tagRows_iff h
  rw [mem_tagRows_iff h', mem_eraseAll_of_subset fun x hx => ((mem_tagRows_iff h).1 hx).1, hrows]
  constructor
  · rintro ⟨⟨hmem, hnot⟩, g, hrow, rfl, rfl⟩
    refine ⟨?_, hmem, g, hrow, rfl, rfl⟩
    rintro ⟨rfl, rfl⟩
    exact hnot ((mem_tagRows_iff h).2 ⟨hmem, g, hrow, rfl, rfl⟩)
  · rintro ⟨hother, hmem, g, hrow, rfl, rfl⟩
    refine ⟨⟨hmem, fun hown => ?_⟩, g, hrow, rfl, rfl⟩
    obtain ⟨-, g', hrow', hid, hkey⟩ := (mem_tagRows_iff h).1 hown
    obtain rfl := Tag.eq_of_mem_rows hrow hrow'
    exact hother ⟨hid, hkey⟩

def lastTag (id key : String) (tags : List Tag) : Option Tag :=
  (tags.filter (·.key = key)).getLast?.map fun g => { g with documentId := id }

theorem lastTag_cons (id key : String) (g : Tag) (tags : List Tag) :
    lastTag id key (g :: tags) =
      (lastTag id key tags).or (if g.key = key then some { g with documentId := id } else none) := by
  unfold lastTag
  rw [List.filter_cons]
  by_cases hkey : g.key = key
  · rw [if_pos hkey, if_pos (decide_eq_true hkey), List.getLast?_cons]
    cases (tags.filter (·.key = key)).getLast? <;> rfl
  · simp [hkey]

theorem exists_of_lastTag {last : Tag} (h : lastTag id key tags = some last) :
    ∃ g ∈ tags, g.key = key ∧ last = { g with documentId := id } := by
  obtain ⟨g, hg, rfl⟩ := Option.map_eq_some_iff.1 h
  obtain ⟨hmem, hkey⟩ := List.mem_filter.1 (List.mem_of_getLast? hg)
  exact ⟨g, hmem, of_decide_eq_true hkey, rfl⟩

theorem TagLegible.setTags (h : T.TagLegible t) (hplain : ∀ g ∈ tags, g.IsPlain) (id : String) :
    (T.setTags t id tags).TagLegible t :=
  List.foldlRecOn tags _ h fun _ hT g hg => hT.setTag (hplain g hg)

theorem mem_tagRows_setTags (h : T.TagLegible t) (hplain : ∀ g ∈ tags, g.IsPlain) :
    row ∈ (T.setTags t id tags).tagRows t m k ↔
      if m = id then (lastTag id k tags).elim (row ∈ T.tagRows t m k) (row ∈ ·.rows t)
      else row ∈ T.tagRows t m k := by
  unfold setTags
  induction tags generalizing T with
  | nil => simp [lastTag]
  | cons g tags ih =>
    obtain ⟨hg, hrest⟩ := List.forall_mem_cons.1 hplain
    have hplain' : Tag.IsPlain { g with documentId := id } := hg
    rw [List.foldl_cons]
    refine (ih (h.setTag hplain') hrest).trans ?_
    have hset : row ∈ (T.setTag t { g with documentId := id }).tagRows t m k ↔ _ :=
      mem_tagRows_setTag h hplain'
    rw [lastTag_cons]
    by_cases hm : m = id
    · rw [if_pos hm, if_pos hm]
      cases lastTag id k tags with
      | some last => rfl
      | none =>
        rw [Option.none_or, Option.elim_none, hset]
        by_cases hkey : g.key = k
        · rw [if_pos ⟨hm, hkey.symm⟩, if_pos hkey, Option.elim_some]
        · rw [if_neg fun h => hkey h.2.symm, if_neg hkey, Option.elim_none]
    · rw [if_neg hm, if_neg hm, hset, if_neg fun h => hm h.1]

end Table

namespace Operation

variable {t : Tenant} {T : Table} {c : Config}

def TagsPlain : Operation → Prop
  | addTags _ tags => ∀ g ∈ tags, g.IsPlain
  | _ => True

theorem tagsPlain_effect (h : T.TagsHave Tag.IsPlain) (hkeeps : T.Keeps t) {op : Operation}
    (hplain : op.TagsPlain) : (op.effect c t T).TagsHave Tag.IsPlain := by
  refine recordsHave_effect (P := fun record => ∀ g, record = .tag g → g.IsPlain) h hkeeps
    (fun _ _ _ _ _ _ _ _ => nofun) (fun record hkind g he => ?_) op (fun id tags hop _ g hg g' he => ?_)
    fun _ _ _ _ _ _ _ => nofun
  · subst he
    simp [Record.kind] at hkind
  · subst hop
    exact Record.tag.inj he ▸ hplain g hg

end Operation

namespace Table

variable {tenants : Tenant → Prop} {t : Tenant} {T : Table} {op : Operation}

structure TagLegibleTo (tenants : Tenant → Prop) (T : Table) : Prop where
  filed : T.FiledBy tenants
  plain : T.TagsHave Tag.IsPlain

theorem TagLegibleTo.legible (h : T.TagLegibleTo tenants)
    (hapart : ∀ t u, tenants t → tenants u → u ≠ t → u.Apart t) (u : Tenant) (hu : tenants u) :
    T.TagLegible u :=
  ⟨h.filed.keeps fun u' hu' => hapart u u' hu hu', h.plain⟩

theorem TagLegibleTo.effect (h : T.TagLegibleTo tenants)
    (hapart : ∀ t u, tenants t → tenants u → u ≠ t → u.Apart t) (ht : tenants t)
    (hplain : op.TagsPlain) {c : Config} (n : Nat) :
    TagLegibleTo tenants { op.effect c t T with batchCalls := n } where
  filed := h.filed.of_edits ht
    ((Operation.edits_effect (h.legible hapart t ht).keeps c op).counted n)
  plain := Operation.tagsPlain_effect h.plain (h.legible hapart t ht).keeps hplain

end Table

theorem Store.tagLegibleTo_fresh {tenants : Tenant → Prop} (name : String) (maxBatchSize : Nat)
    (clock : Clock) : (fresh name maxBatchSize clock).table.TagLegibleTo tenants :=
  ⟨filedBy_fresh name maxBatchSize clock tenants,
    recordsHave_fresh (fun record => ∀ g, record = .tag g → g.IsPlain) name maxBatchSize clock⟩

end Cabinet
