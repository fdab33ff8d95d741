import Cabinet.Proofs.Distinct
import Cabinet.Proofs.Store.History
import Cabinet.Proofs.Store.Isolation
import Cabinet.Proofs.Store.TagRows

/-! The tags of a document as a map from keys to tags. Main statement: along requests that keep the
documents, what is found under a key is the last tag that was added under it, and nothing once the key
has been deleted. -/

namespace Cabinet

namespace Tag

variable {t : Tenant} {g : Tag} {row row' : Row}

theorem exists_sort_of_rows (h : row ∈ g.rows t) (h' : row' ∈ g.rows t)
    (hne : row.address.sort ≠ row'.address.sort) : ∃ rest rest',
      row.address.sort = (SortKey.tag g.key ++ delimiter) ++ rest ∧
      row'.address.sort = (SortKey.tag g.key ++ delimiter) ++ rest' := by
  rcases mem_rows_iff.1 h with ⟨hvalue, rfl⟩ | ⟨v, hvalue, rfl⟩ | ⟨vs, hvalue, i, hi, rfl⟩ <;>
    rcases mem_rows_iff.1 h' with ⟨hvalue', rfl⟩ | ⟨v', hvalue', rfl⟩ | ⟨vs', hvalue', j, hj, rfl⟩ <;>
    rw [hvalue] at hvalue' <;> cases hvalue'
  · exact absurd rfl hne
  · exact absurd rfl hne
  · exact ⟨_, _, rfl, rfl⟩

/-- Between two rows of a tag stands no row of another key. -/
theorem key_eq_of_between {middle : Tag} {r : Row} (hplain : g.IsPlain) (hmiddle : middle.IsPlain)
    (h : row ∈ g.rows t) (h' : row' ∈ g.rows t) (hr : r ∈ middle.rows t)
    (hlt : row.address.sort < r.address.sort) (hlt' : r.address.sort < row'.address.sort) :
    middle.key = g.key := by
  have hne : row.address.sort ≠ row'.address.sort :=
    fun he => String.lt_irrefl _ (he ▸ String.lt_trans hlt hlt')
  obtain ⟨rest, rest', hrow, hrow'⟩ := exists_sort_of_rows h h' hne
  rw [hrow] at hlt
  rw [hrow'] at hlt'
  obtain ⟨after, hafter⟩ := Text.beginsWith_iff.1 (Text.beginsWith_of_between hlt hlt')
  obtain ⟨tail, htail, hplace⟩ := address_of_mem_rows hr
  rw [hplace, String.append_assoc] at hafter
  exact (SortKey.tag_append_injective hmiddle hplain htail.beginsWith
    (.inr (Text.beginsWith_append _ _)) hafter).1

end Tag

namespace Store

variable {tenants : Tenant → Prop} {t : Tenant} {c : Config} {requests : List Request}
  {s : Store} {r : Request} {id key : String} {tag : Option Tag} {row : Row}

/-- What there is under a tag key of a document once tenant `t` has been answered: the last tag with
the key that was added, nothing after a deletion of the key, and otherwise what there was. -/
def tagAfter (t : Tenant) (id key : String) (tag : Option Tag) :
    Request × Except Error Answer → Option Tag
  | (⟨u, _, .addTags m tags⟩, .ok _) =>
    if u = t ∧ id = m then (Table.lastTag m key tags).or tag else tag
  | (⟨u, _, .deleteTag m k⟩, .ok _) => if u = t ∧ id = m ∧ key = k then none else tag
  | _ => tag

def tagOf (t : Tenant) (id key : String) (exchanges : List (Request × Except Error Answer)) :
    Option Tag :=
  exchanges.foldl (tagAfter t id key) none

/-- The rows under the key are those of the tag. -/
structure Carries (t : Tenant) (id key : String) (s : Store) (tag : Option Tag) : Prop where
  own : ∀ g ∈ tag, g.documentId = id ∧ g.key = key ∧ g.value ≠ .many []
  rows : ∀ row, row ∈ s.table.tagRows t id key ↔ ∃ g ∈ tag, row ∈ g.rows t

theorem tagAfter_of_ne (hother : r.tenant ≠ t) (answer : Except Error Answer) :
    tagAfter t id key tag (r, answer) = tag := by
  obtain ⟨u, clock, op⟩ := r
  cases op <;> cases answer <;> simp_all [tagAfter]

theorem Carries.step_of_kinds (h : s.Carries t id key tag) (hkeeps : s.table.Keeps t)
    (hr : r.tenant = t) (hop : r.operation.keepsDocuments) (hkind : .tag ∉ r.operation.kinds) :
    (s.step c r).2.Carries t id key tag := by
  obtain ⟨calls, hT⟩ := table_step c s r
  subst hr
  have hedits := Operation.edits_kinds hkeeps c hop
  have hP (row : Row) (hrow : row.IsLive r.tenant ∧ row.record.kind ∈ r.operation.kinds) :
      row.IsLive r.tenant ∧ row.record.kind ≠ .tag :=
    ⟨hrow.1, fun he => hkind (he ▸ hrow.2)⟩
  refine ⟨h.own, fun row => ?_⟩
  rw [hT]
  exact (hedits.mem_tagRows_iff hkeeps hP).trans (h.rows row)

theorem Carries.step_addTags (h : s.Carries t id key tag) (hs : s.table.TagLegible t)
    {clock : Clock} {m : String} {tags : List Tag} (hplain : ∀ g ∈ tags, g.IsPlain) :
    let r : Request := ⟨t, clock, .addTags m tags⟩
    (s.step c r).2.Carries t id key (tagAfter t id key tag (r, (s.step c r).1)) := by
  intro r
  cases hfault : s.table.metadataFault? t m (tags.flatMap Tag.issues) with
  | some e =>
    have hstep : s.step c r = (.error e, { s with clock }) := by
      simp only [r, step, Operation.perform, Action.run_bind, run_addTags, hfault]
    rw [hstep]
    exact ⟨h.own, h.rows⟩
  | none =>
    have hstep : s.step c r = (.ok .done, { s with clock, table := s.table.setTags t m tags }) := by
      simp only [r, step, Operation.perform, Action.run_bind, run_addTags, hfault]
      rfl
    rw [hstep]
    have hvalues : ∀ g ∈ tags, g.value ≠ .many [] := fun g hg => Tag.value_ne_of_issues
      (List.flatMap_eq_nil_iff.1 (Operation.issues_of_metadataFault? hfault) g hg)
    have hrows (row : Row) : row ∈ (s.table.setTags t m tags).tagRows t id key ↔ _ :=
      Table.mem_tagRows_setTags hs hplain
    simp only [tagAfter, r, true_and]
    by_cases hid : id = m
    · subst hid
      rw [if_pos rfl]
      simp only [if_pos] at hrows
      cases hlast : Table.lastTag id key tags with
      | none =>
        refine ⟨h.own, fun row => ?_⟩
        rw [hrows, hlast]
        exact h.rows row
      | some g =>
        refine ⟨fun g' hg' => ?_, fun row => ?_⟩
        · obtain rfl := Option.some.inj hg'
          obtain ⟨added, hadded, hkey, rfl⟩ := Table.exists_of_lastTag hlast
          exact ⟨rfl, hkey, hvalues added hadded⟩
        · rw [hrows, hlast]
          simp
    · rw [if_neg hid]
      simp only [if_neg hid] at hrows
      exact ⟨h.own, fun row => (hrows row).trans (h.rows row)⟩

theorem step_deleteTag (c : Config) (s : Store) (t : Tenant) (clock : Clock) (id key : String) :
    s.step c ⟨t, clock, .deleteTag id key⟩ =
      (.ok (.truth (s.table.tagRows t id key ≠ [])),
        { s with clock, table := s.table.eraseAll (s.table.tagRows t id key) }) := by
  simp only [step, Operation.perform, Action.run_bind, run_deleteTag]
  rfl

theorem Carries.step_deleteTag (h : s.Carries t id key tag) (hs : s.table.Keeps t) {clock : Clock}
    {m k : String} :
    let r : Request := ⟨t, clock, .deleteTag m k⟩
    (s.step c r).2.Carries t id key (tagAfter t id key tag (r, (s.step c r).1)) := by
  intro r
  rw [Store.step_deleteTag]
  have hrows (row : Row) : row ∈ (s.table.eraseAll (s.table.tagRows t m k)).tagRows t id key ↔
      ¬(id = m ∧ key = k) ∧ row ∈ s.table.tagRows t id key := Table.mem_tagRows_erased hs
  simp only [tagAfter, r, true_and]
  split
  · rename_i hown
    refine ⟨nofun, fun row => (hrows row).trans ?_⟩
    simp [hown]
  · rename_i hother
    exact ⟨h.own, fun row => (hrows row).trans ((and_iff_right hother).trans (h.rows row))⟩

theorem Carries.step (h : s.Carries t id key tag) (hs : s.table.TagLegibleTo tenants)
    (hapart : ∀ t u, tenants t → tenants u → u ≠ t → u.Apart t) (ht : tenants t)
    (hr : tenants r.tenant) (hplain : r.operation.TagsPlain)
    (hop : r.tenant = t → r.operation.keepsDocuments) :
    (s.step c r).2.Carries t id key (tagAfter t id key tag (r, (s.step c r).1)) := by
  have hlegible := hs.legible hapart t ht
  by_cases hmine : r.tenant = t
  · obtain ⟨u, clock, op⟩ := r
    obtain rfl : u = t := hmine
    have aside (hkind : .tag ∉ op.kinds) (hsame : ∀ answer,
        tagAfter u id key tag (⟨u, clock, op⟩, answer) = tag) :
        (s.step c ⟨u, clock, op⟩).2.Carries u id key
          (tagAfter u id key tag (⟨u, clock, op⟩, (s.step c ⟨u, clock, op⟩).1)) :=
      (hsame _).symm ▸ h.step_of_kinds hlegible.keeps rfl (hop rfl) hkind
    cases op with
    | addTags m tags => exact h.step_addTags hlegible hplain
    | deleteTag m k => exact h.step_deleteTag hlegible.keeps
    | _ => exact aside (by simp [Operation.kinds]) fun _ => rfl
  · rw [tagAfter_of_ne hmine]
    obtain ⟨calls, hT⟩ := table_step c s r
    have hedits := Operation.edits_effect (hs.legible hapart _ hr).keeps c r.operation
    have hother := hapart t _ ht hr hmine
    refine ⟨h.own, fun row => ?_⟩
    rw [hT]
    exact (hedits.mem_tagRows_iff_of_apart hlegible.keeps hother).trans (h.rows row)

theorem Carries.head?_tagRows (h : s.Carries t id key tag) :
    (s.table.tagRows t id key).head?.bind Row.tag? = tag := by
  cases htag : tag with
  | none =>
    have hnil : s.table.tagRows t id key = [] := List.eq_nil_iff_forall_not_mem.2 fun row hrow => by
      obtain ⟨g, hg, -⟩ := (h.rows row).1 hrow
      exact absurd (htag ▸ hg) nofun
    rw [hnil]
    rfl
  | some g =>
    subst htag
    obtain ⟨-, -, hvalue⟩ := h.own g rfl
    obtain ⟨row, hrow⟩ := List.exists_mem_of_ne_nil _ (Tag.rows_ne_nil (t := t) hvalue)
    obtain ⟨head, hhead⟩ : ∃ head, (s.table.tagRows t id key).head? = some head :=
      Option.isSome_iff_exists.1 (List.isSome_head?.2
        (List.ne_nil_of_mem ((h.rows row).2 ⟨g, rfl, hrow⟩)))
    obtain ⟨g', hg', hmem⟩ := (h.rows head).1 (List.mem_of_head? hhead)
    obtain rfl := Option.some.inj hg'
    rw [hhead, Option.bind_some, Row.tag?, Tag.record_of_mem_rows hmem]

theorem Carries.tagRows_ne_nil (h : s.Carries t id key tag) :
    s.table.tagRows t id key ≠ [] ↔ tag.isSome := by
  rw [← h.head?_tagRows]
  cases hrows : s.table.tagRows t id key with
  | nil => simp
  | cons row rest =>
    obtain ⟨g, -, hrow⟩ := (h.rows row).1 (hrows ▸ List.mem_cons_self)
    simp [Row.tag?, Tag.record_of_mem_rows hrow]

section

variable {tagUnder : String → Option Tag} {g g' : Tag}

theorem mem_rows_of_tagPart (hkeeps : s.table.Keeps t)
    (hrow : row ∈ s.table.rowsFrom (Partition.document t id) SortKey.tags) (hg : row.tag? = some g) :
    row ∈ g.rows t ∧ row ∈ s.table.tagRows t id g.key := by
  obtain ⟨hmem, hp, -⟩ := Table.mem_rowsFrom.1 hrow
  have hrows := (hkeeps.isLive_of_document hmem hp).mem_rows hg
  obtain ⟨tail, -, hplace⟩ := Tag.address_of_mem_rows hrows
  have hid : g.documentId = id := Partition.document_injective ((congrArg _ hplace).symm.trans hp)
  exact ⟨hrows, (Table.mem_tagRows_iff hkeeps).2 ⟨hmem, g, hrows, hid, rfl⟩⟩

theorem mem_tags_iff (hkeeps : s.table.Keeps t) (h : ∀ key, s.Carries t id key (tagUnder key)) :
    g ∈ (s.table.rowsFrom (Partition.document t id) SortKey.tags).filterMap Row.tag? ↔
      tagUnder g.key = some g := by
  rw [List.mem_filterMap]
  constructor
  · rintro ⟨row, hrow, hg⟩
    obtain ⟨hrows, hmem⟩ := mem_rows_of_tagPart hkeeps hrow hg
    obtain ⟨g', hg', hrows'⟩ := ((h g.key).rows row).1 hmem
    exact Tag.eq_of_mem_rows hrows hrows' ▸ hg'
  · intro hg
    obtain ⟨rfl, -, hvalue⟩ := (h g.key).own g hg
    obtain ⟨row, hrow⟩ := List.exists_mem_of_ne_nil _ (Tag.rows_ne_nil (t := t) hvalue)
    obtain ⟨hmem, -⟩ := (Table.mem_tagRows_iff hkeeps).1 (((h g.key).rows row).2 ⟨g, hg, hrow⟩)
    obtain ⟨tail, -, hplace⟩ := Tag.address_of_mem_rows hrow
    refine ⟨row, Table.mem_rowsFrom.2 ⟨hmem, by rw [hplace], ?_⟩, ?_⟩
    · rw [hplace, SortKey.tag, String.append_assoc]
      exact Text.beginsWith_append _ _
    · rw [Row.tag?, Tag.record_of_mem_rows hrow]

theorem isGrouped_tags (hs : s.table.TagLegible t) (h : ∀ key, s.Carries t id key (tagUnder key)) :
    IsGrouped Tag.key
      ((s.table.rowsFrom (Partition.document t id) SortKey.tags).filterMap Row.tag?) := by
  refine isGrouped_filterMap fun x y z hsub a b c ha hb hc hkey => ?_
  have hlt := (s.table.rowsFrom_pairwise (Partition.document t id) SortKey.tags).sublist hsub
  have hin (row : Row) (hrow : row ∈ [x, y, z]) := hsub.subset hrow
  -- one key has one tag
  have hac : a = c := by
    have ha' := (mem_tags_iff hs.keeps h).1 (List.mem_filterMap.2 ⟨x, hin x (by simp), ha⟩)
    have hc' := (mem_tags_iff hs.keeps h).1 (List.mem_filterMap.2 ⟨z, hin z (by simp), hc⟩)
    exact Option.some.inj (ha'.symm.trans ((congrArg tagUnder hkey).trans hc'))
  subst hac
  have hx := (mem_rows_of_tagPart hs.keeps (hin x (by simp)) ha).1
  have hy := (mem_rows_of_tagPart hs.keeps (hin y (by simp)) hb).1
  have hz := (mem_rows_of_tagPart hs.keeps (hin z (by simp)) hc).1
  have hmem (row : Row) (hrow : row ∈ [x, y, z]) : row ∈ s.table :=
    (Table.mem_rowsFrom.1 (hin row hrow)).1
  simp only [List.pairwise_cons, List.mem_cons, List.not_mem_nil, or_false, forall_eq_or_imp,
    forall_eq] at hlt
  exact Tag.key_eq_of_between (hs.isPlain (hmem x (by simp)) hx) (hs.isPlain (hmem y (by simp)) hy)
    hx hz hy hlt.1.1 hlt.2.1

end

/-- Along the requests of tenants side by side, which add tags with plain keys, and of which those of
tenant `t` keep the documents: under a key is found the last tag that has been added under it, and
nothing once the key has been deleted. The tags of a document are those that are found under their
keys, each key once, and a deletion tells whether there was one. -/
theorem tags_form_map (name : String) (maxBatchSize : Nat) (clock : Clock)
    (hapart : ∀ t u, tenants t → tenants u → u ≠ t → u.Apart t) (ht : tenants t)
    (hrequests : ∀ r ∈ requests, tenants r.tenant ∧ r.operation.TagsPlain ∧
      (r.tenant = t → r.operation.keepsDocuments)) (id : String) (now : Clock) :
    let s := (run c (fresh name maxBatchSize clock) requests).2
    let exchanges := requests.zip (run c (fresh name maxBatchSize clock) requests).1
    let ask op := (s.step c ⟨t, now, op⟩).1
    (∀ key, ask (.findTag id key) = .ok (.tag (tagOf t id key exchanges))) ∧
    (∃ gs, ask (.findTags id) = .ok (.tags gs) ∧ (gs.map Tag.key).Nodup ∧
      ∀ g, g ∈ gs ↔ tagOf t id g.key exchanges = some g) ∧
    ∀ key, ask (.deleteTag id key) = .ok (.truth (tagOf t id key exchanges).isSome) := by
  intro s exchanges ask
  have hcarries (key : String) :
      s.table.TagLegibleTo tenants ∧ s.Carries t id key (tagOf t id key exchanges) := by
    refine run_foldl (I := fun s tag => s.table.TagLegibleTo tenants ∧ s.Carries t id key tag)
      (fun r hr s tag hs => ?_) ⟨tagLegibleTo_fresh name maxBatchSize clock, nofun, fun row => ?_⟩
    · obtain ⟨hu, hplain, hop⟩ := hrequests r hr
      refine ⟨?_, hs.2.step hs.1 hapart ht hu hplain hop⟩
      obtain ⟨calls, hT⟩ := table_step c s r
      rw [hT]
      exact hs.1.effect hapart hu hplain calls
    · have hkeeps : (fresh name maxBatchSize clock).table.Keeps t :=
        ((tagLegibleTo_fresh name maxBatchSize clock).legible hapart t ht).keeps
      rw [Table.mem_tagRows_iff hkeeps]
      exact iff_of_false (fun h => not_mem_fresh name maxBatchSize clock _ h.1) (by simp)
  have hs : s.table.TagLegible t := (hcarries "").1.legible hapart t ht
  have hall (key : String) := (hcarries key).2
  refine ⟨fun key => ?_, ⟨_, rfl, ?_, fun g => ?_⟩, fun key => ?_⟩
  · rw [← (hall key).head?_tagRows]
    rfl
  · rw [List.Nodup, List.pairwise_map]
    exact (isGrouped_tags hs hall).pairwise_firstOfRuns
  · rw [← mem_tags_iff hs.keeps hall]
    refine ⟨mem_of_mem_firstOfRuns, fun hg => ?_⟩
    -- what is left under the key is the one tag there is
    obtain ⟨g', hg', hkey⟩ : ∃ g' ∈ firstOfRuns Tag.key _, g'.key = g.key :=
      exists_mem_firstOfRuns hg
    have hfound := (mem_tags_iff hs.keeps hall).1 (mem_of_mem_firstOfRuns hg')
    rw [hkey, (mem_tags_iff hs.keeps hall).1 hg] at hfound
    exact Option.some.inj hfound ▸ hg'
  · simp only [ask, step_deleteTag, (hall key).tagRows_ne_nil, Bool.decide_eq_true]

def projectsTagged : List Request :=
  let document : Document :=
    { id := "p", userId := "u", inserted := ⟨1704067200, 0⟩, modified := ⟨1704067200, 0⟩ }
  let tag (key : String) (value : TagValue) : Tag :=
    { documentId := "", key, value, userId := "u", inserted := ⟨1704067200, 0⟩ }
  let north (op : Operation) : Request := ⟨.site "north", ⟨0⟩, op⟩
  let south (op : Operation) : Request := ⟨.site "south", ⟨0⟩, op⟩
  [north (.saveDocument document), south (.saveDocument document),
    north (.addTags "p" [tag "project" (.many ["a", "b", "c"]), tag "project!" (.single "a"),
      tag "projects" .keyOnly]),
    south (.addTags "p" [tag "project" (.single "z")]),
    north (.addTags "p" [tag "project" (.single "a"), tag "project" (.many ["d", "a"])]),
    north (.deleteTag "p" "projects"), south (.deleteDocument "p" false)]

theorem projectsTagged_form_map :
    (∀ r ∈ projectsTagged, (r.tenant = .site "north" ∨ r.tenant = .site "south") ∧
      r.operation.TagsPlain ∧ (r.tenant = .site "north" → r.operation.keepsDocuments)) ∧
    let s := (run {} (fresh "documents" 100 ⟨0⟩) projectsTagged).2
    let ask op := (s.step {} ⟨.site "north", ⟨0⟩, op⟩).1
    ask (.findTag "p" "project") = .ok (.tag (some
      { documentId := "p", key := "project", value := .many ["d", "a"], userId := "u",
        inserted := ⟨1704067200, 0⟩ })) ∧
      (∃ gs, ask (.findTags "p") = .ok (.tags gs) ∧ (gs.map Tag.key).Nodup) ∧
      ask (.deleteTag "p" "project!") = .ok (.truth true) ∧
      ask (.deleteTag "p" "projects") = .ok (.truth false) := by
  have hrequests : ∀ r ∈ projectsTagged, (r.tenant = .site "north" ∨ r.tenant = .site "south") ∧
      r.operation.TagsPlain ∧ (r.tenant = .site "north" → r.operation.keepsDocuments) := by
    simp [projectsTagged, Operation.TagsPlain, Tag.IsPlain, Operation.keepsDocuments]
  obtain ⟨hfind, ⟨gs, hall, hkeys, -⟩, hdelete⟩ := tags_form_map (c := {}) "documents" 100 ⟨0⟩
    (Tenant.apart_of_sites (by decide) (by decide) (by decide)) (.inl rfl) hrequests "p" ⟨0⟩
  refine ⟨hrequests, (hfind "project").trans ?_, ⟨gs, hall, hkeys⟩,
    (hdelete "project!").trans ?_, (hdelete "projects").trans ?_⟩
  · decide +kernel
  · decide +kernel
  · decide +kernel

end Store

end Cabinet
