import Cabinet.Proofs.Store.Simulation

/-! Each request of a tenant in two stores that it cannot tell apart. Main statement: the answers are
the same but for the names of page tokens, and the stores stay alike. -/

namespace Cabinet

open NamesTokens (tokens rename)
open Cabinet.Action

variable {t : Tenant} {w : Renaming}

namespace Store

theorem matches_saveDocument (d : Document) :
    Matches t w (fun _ => Eq) (saveDocument t d) (saveDocument t d) :=
  matches_of_fault _ _ _ (run_saveDocument t d) (fun _ _ h => h.saveFault? d)
    (fun _ _ h => h.successor d) fun _ _ h => h.saved d

theorem matches_findDocuments (c : Config) (ids : List String) :
    Matches t w (fun _ => Eq) (findDocuments c t ids) (findDocuments c t ids) := by
  refine matches_of_run (fun T => (T.lookUp c t ids).1) (fun T => (T.lookUp c t ids).2)
    (run_findDocuments c t ids) (fun T T' h => h.lookUp c ids) fun T T' h => ?_
  obtain ⟨n, hn⟩ := T.lookUp_table c t ids
  obtain ⟨n', hn'⟩ := T'.lookUp_table c t ids
  rw [hn, hn']
  exact h.counted n n'

theorem matches_deleteDocument (id : String) (soft : Bool) :
    Matches t w (fun _ => Eq) (deleteDocument t id soft) (deleteDocument t id soft) := by
  let outcome (T : Table) : Except Error Bool := .ok (T.document? t id).isSome
  let next (T : Table) : Table := (Operation.deleteDocument id soft).effect {} t T
  have hrun : ∀ s : Store,
      (deleteDocument t id soft).run s = (outcome s.table, { s with table := next s.table }) := by
    intro s
    rw [run_deleteDocument]
    simp only [outcome, next, Operation.effect]
    cases s.table.document? t id <;> rfl
  refine matches_of_run outcome next hrun (fun T T' h => ?_) fun T T' h => h.effect {} _
  simp only [outcome, h.document?]

theorem matches_restoreDocument (id : String) :
    Matches t w (fun _ => Eq) (restoreDocument t id) (restoreDocument t id) := by
  let outcome (T : Table) : Except Error Bool :=
    if (T.document? t id).isSome then .error (.documentExists id)
    else if T.restorable t id = [] then .ok false
    else ((Table.unmarkedMoves t (T.restorable t id)).map fun _ => true).mapError .unmarked
  let next (T : Table) : Table := (Operation.restoreDocument id).effect {} t T
  have hrun : ∀ s : Store,
      (restoreDocument t id).run s = (outcome s.table, { s with table := next s.table }) := by
    intro s
    rw [run_restoreDocument]
    simp only [outcome, next, Operation.effect]
    by_cases hlive : (s.table.document? t id).isSome
    · simp only [hlive, if_true, true_or]
    · by_cases hrows : s.table.restorable t id = []
      · simp only [hlive, hrows, or_true, if_true, Bool.false_eq_true, if_false]
      · simp only [hlive, hrows, or_self, Bool.false_eq_true, if_false]
        cases Table.unmarkedMoves t (s.table.restorable t id) <;> rfl
  refine matches_of_run outcome next hrun (fun T T' h => ?_) fun T T' h => h.effect {} _
  simp only [outcome, h.document?, h.restorable]

theorem matches_addTags (id : String) (tags : List Tag) :
    Matches t w (fun _ => Eq) (addTags t id tags) (addTags t id tags) :=
  matches_of_fault _ (fun _ => ()) _ (run_addTags t id tags) (fun _ _ h => h.metadataFault? id _)
    (fun _ _ _ => rfl) fun _ _ h => h.setTags id tags

theorem matches_setAttributes (c : Config) (id : String) (attributes : List Attribute) :
    Matches t w (fun _ => Eq) (setAttributes c t id attributes)
      (setAttributes c t id attributes) :=
  matches_of_fault _ (fun _ => ()) _ (run_setAttributes c t id attributes)
    (fun _ _ h => h.metadataFault? id _) (fun _ _ _ => rfl)
    fun _ _ h => h.attributesSet c id attributes

theorem matches_deleteTag (id key : String) :
    Matches t w (fun _ => Eq) (deleteTag t id key) (deleteTag t id key) := by
  refine matches_of_run (fun T => .ok (decide (T.tagRows t id key ≠ [])))
    (fun T => T.eraseAll (T.tagRows t id key)) (run_deleteTag t id key) (fun T T' h => ?_)
    fun T T' h => ?_
  · simp only [h.tagRows]
  · simp only [h.tagRows]
    exact h.eraseAll _

theorem matches_deleteAttribute (c : Config) (id key : String) :
    Matches t w (fun _ => Eq) (deleteAttribute c t id key) (deleteAttribute c t id key) := by
  refine matches_of_run (fun T => .ok (T.attributeRows t id key).length)
    (fun T => T.attributeDeleted c t id key) (run_deleteAttribute c t id key) (fun T T' h => ?_)
    fun T T' h => ?_
  · simp only [h.attributeRows]
  · exact h.attributeDeleted c id key

theorem matches_deleteEmptyFolder (path : String) :
    Matches t w (fun _ => Eq) (deleteEmptyFolder t path) (deleteEmptyFolder t path) := by
  let next (T : Table) : Table := (Operation.deleteEmptyFolder path).effect {} t T
  have hrun : ∀ s : Store, (deleteEmptyFolder t path).run s =
      ((s.table.emptyFolder t path).map fun _ => (), { s with table := next s.table }) := by
    intro s
    rw [run_deleteEmptyFolder]
    simp only [next, Operation.effect]
    cases s.table.emptyFolder t path <;> rfl
  refine matches_of_run (fun T => (T.emptyFolder t path).map fun _ => ()) next hrun
    (fun T T' h => ?_) fun T T' h => h.effect {} _
  simp only [h.emptyFolder]

theorem relates_withItems {α β : Type} {page page' : Page α} (h : w.Relates page page')
    (f : List α → List β) :
    w.Relates (page.withItems (f page.items)) (page'.withItems (f page'.items)) :=
  ⟨h.1, by rw [h.2]; rfl⟩

theorem matches_page {α : Type} (c : Config) {q : Query} (hq : Partition.IsOwn t q.partition)
    {request request' : PageRequest} (h : w.Relates request request') (f : List Row → List α) :
    Matches t w Renaming.Relates
      (do let page ← Paging.query c q request; return page.withItems (f page.items))
      (do let page ← Paging.query c q request'; return page.withItems (f page.items)) :=
  (Paging.matches_query c hq h).bind fun _ _ _ _ hpage => matches_pure (relates_withItems hpage f)

theorem matches_search (c : Config) (criteria : Criteria) {request request' : PageRequest}
    (h : w.Relates request request') :
    Matches t w Renaming.Relates (search c t criteria request) (search c t criteria request') := by
  have hpartition : Partition.IsOwn t (Partition.attributeKey t criteria.compile.key) :=
    .inl Partition.isLive_attributeKey
  have hlimit : request'.limit = request.limit := by rw [h.2]; rfl
  unfold search
  simp only [hlimit]
  split
  · exact (matches_throw _).bind fun _ _ _ _ (hne : False) => hne.elim
  · split
    · apply (Paging.matches_query c hpartition h).bind
      intro w' _ page page' hpage
      have hitems : page'.items = page.items := by rw [hpage.2]; rfl
      rw [hitems]
      apply (matches_findDocuments c _).bind
      intro w'' hw found _ hfound
      subst hfound
      exact matches_pure ⟨fun id hid => (hpage.1 id hid).mono hw, by rw [(hpage.mono hw).2]; rfl⟩
    · rename_i values _
      apply matches_table.bind
      intro w' _ T T' hT
      have hrows : (values.flatMap fun value => T.queryAll
          { index := .first, partition := Partition.attributeKey t criteria.compile.key,
            condition := some (.equals value) }) = values.flatMap fun value => T'.queryAll
          { index := .first, partition := Partition.attributeKey t criteria.compile.key,
            condition := some (.equals value) } :=
        List.flatMap_congr fun value _ => hT.queryAll hpartition
      rw [hrows]
      apply (matches_findDocuments c _).bind
      intro w'' _ found _ hfound
      subst hfound
      exact matches_pure ⟨nofun, rfl⟩

end Store

namespace Operation

theorem matches_plain {α : Type} {a : Action α} {f : α → Answer} (hf : ∀ x, tokens (f x) = [])
    (hrename : ∀ ρ x, rename ρ (f x) = f x) (ha : Matches t w (fun _ => Eq) a a) :
    Matches t w Renaming.Relates (do return f (← a)) (do return f (← a)) := by
  refine ha.bind fun w' _ x x' hx => matches_pure ⟨?_, ?_⟩
  · rw [hf]
    nofun
  · rw [hrename, hx]

theorem matches_paged {α : Type} {a a' : Action (Page α)} {f : Page α → Answer}
    (hf : ∀ page, tokens (f page) = tokens page)
    (hrename : ∀ ρ page, rename ρ (f page) = f (rename ρ page))
    (ha : Matches t w Renaming.Relates a a') :
    Matches t w Renaming.Relates (do return f (← a)) (do return f (← a')) := by
  refine ha.bind fun w' _ page page' hpage => matches_pure ⟨?_, ?_⟩
  · rw [hf]
    exact hpage.1
  · rw [hrename, hpage.2]

theorem matches_perform (c : Config) (op : Operation) (hop : ∀ id ∈ tokens op, w.Owns id) :
    Matches t w Renaming.Relates (op.perform c t) ((rename w.perm op).perform c t) := by
  have request {page : PageRequest} (h : op.page? = some page) :
      w.Relates page (rename w.perm page) :=
    ⟨fun id hid => hop id (by show id ∈ tokens op.page?; rw [h]; simpa [tokens] using hid), rfl⟩
  have plain {α : Type} {f : α → Answer} {a : Action α} (hf : ∀ x, tokens (f x) = [])
      (hrename : ∀ ρ x, rename ρ (f x) = f x) (ha : Matches t w (fun _ => Eq) a a) :=
    matches_plain hf hrename ha
  have read {α : Type} {f : α → Answer} (g : Table → α) (hf : ∀ x, tokens (f x) = [])
      (hrename : ∀ ρ x, rename ρ (f x) = f x)
      (hg : ∀ T T' : Table, T.Alike t T' → g T = g T') {a : Action α}
      (hrun : ∀ s : Store, a.run s = (.ok (g s.table), s)) :
      Matches t w Renaming.Relates (do return f (← a)) (do return f (← a)) :=
    matches_plain hf hrename (matches_of_read g hrun hg)
  cases op with
  | saveDocument d =>
    exact plain (fun _ => rfl) (fun _ _ => rfl) (Store.matches_saveDocument d)
  | findDocument id =>
    exact read (·.document? t id) (fun _ => rfl) (fun _ _ => rfl) (fun _ _ h => h.document? id)
      fun _ => rfl
  | findDocuments ids =>
    exact plain (fun _ => rfl) (fun _ _ => rfl) (Store.matches_findDocuments c ids)
  | findDocumentVersion id n =>
    exact read (·.documentVersion? t id n) (fun _ => rfl) (fun _ _ => rfl)
      (fun _ _ h => h.documentVersion? id n) (Store.run_findDocumentVersion t id n)
  | listDocumentVersions id =>
    exact read (·.versions t id) (fun _ => rfl) (fun _ _ => rfl) (fun _ _ h => h.versions id)
      fun _ => rfl
  | findChildDocuments id =>
    exact read (·.children t id) (fun _ => rfl) (fun _ _ => rfl) (fun _ _ h => h.children id)
      fun _ => rfl
  | listDocumentsByDate day page =>
    have hpages : Matches t w Renaming.Relates (Store.listDocumentsByDate c t day page)
        (Store.listDocumentsByDate c t day (rename w.perm page)) :=
      Store.matches_page c (.inl Partition.isLive_day) (request rfl) fun rows =>
        firstsBy Document.id (rows.filterMap Row.document?)
    exact matches_paged (fun _ => rfl) (fun _ _ => rfl) hpages
  | listDeletedDocuments day page =>
    have hpages : Matches t w Renaming.Relates (Store.listDeletedDocuments c t day page)
        (Store.listDeletedDocuments c t day (rename w.perm page)) :=
      Store.matches_page c (.inr Partition.isLive_day.isDeleted_markKey) (request rfl) fun rows =>
        firstsBy Document.id (rows.filterMap Row.document?)
    exact matches_paged (fun _ => rfl) (fun _ _ => rfl) hpages
  | deleteDocument id soft =>
    exact plain (fun _ => rfl) (fun _ _ => rfl) (Store.matches_deleteDocument id soft)
  | restoreDocument id =>
    exact plain (fun _ => rfl) (fun _ _ => rfl) (Store.matches_restoreDocument id)
  | addTags id tags =>
    exact plain (fun _ => rfl) (fun _ _ => rfl) (Store.matches_addTags id tags)
  | findTags id =>
    refine read (fun T => firstOfRuns Tag.key
      ((T.rowsFrom (Partition.document t id) SortKey.tags).filterMap Row.tag?)) (fun _ => rfl)
      (fun _ _ => rfl) (fun T T' h => ?_) fun _ => rfl
    simp only [h.rowsFrom]
  | findTag id key =>
    refine read (fun T => (T.tagRows t id key).head?.bind Row.tag?) (fun _ => rfl)
      (fun _ _ => rfl) (fun T T' h => ?_) fun _ => rfl
    simp only [h.tagRows]
  | deleteTag id key =>
    exact plain (fun _ => rfl) (fun _ _ => rfl) (Store.matches_deleteTag id key)
  | searchTags key value page =>
    have hpages : Matches t w Renaming.Relates (Store.searchTags c t key value page)
        (Store.searchTags c t key value (rename w.perm page)) := by
      cases value with
      | none =>
        exact Store.matches_page c (.inl Partition.isLive_tag) (request rfl) fun rows =>
          firstsBy Tag.documentId (rows.filterMap Row.tag?)
      | some value =>
        exact Store.matches_page c (.inl Partition.isLive_tagValue) (request rfl) fun rows =>
          firstsBy Tag.documentId (rows.filterMap Row.tag?)
    exact matches_paged (fun _ => rfl) (fun _ _ => rfl) hpages
  | setAttributes id attributes =>
    exact plain (fun _ => rfl) (fun _ _ => rfl) (Store.matches_setAttributes c id attributes)
  | findAttributes id =>
    refine read (fun T => ((T.rowsFrom (Partition.document t id) SortKey.attributes).filterMap
      Row.attribute?).filter fun a => !a.value.isComposite) (fun _ => rfl) (fun _ _ => rfl)
      (fun T T' h => ?_) fun _ => rfl
    simp only [h.rowsFrom]
  | findAttribute id key =>
    refine read (fun T => T.attributesOf t id key) (fun _ => rfl) (fun _ _ => rfl)
      (fun T T' h => ?_) fun _ => rfl
    simp only [Table.attributesOf, h.attributeRows]
  | deleteAttribute id key =>
    exact plain (fun _ => rfl) (fun _ _ => rfl) (Store.matches_deleteAttribute c id key)
  | search criteria page =>
    exact matches_paged (fun _ => rfl) (fun _ _ => rfl) (Store.matches_search c criteria (request rfl))
  | listFolder path page =>
    have hpages : Matches t w Renaming.Relates (Store.listFolder c t path page)
        (Store.listFolder c t path (rename w.perm page)) := by
      rw [Store.listFolder_eq, Store.listFolder_eq]
      exact Store.matches_page c (.inl Partition.isLive_folderKey) (request rfl) _
    exact matches_paged (fun _ => rfl) (fun _ _ => rfl) hpages
  | folderOfDocument id =>
    refine read (fun T => (T.leaf? t id).bind Folder.ofRow?) (fun _ => rfl) (fun _ _ => rfl)
      (fun T T' h => ?_) fun _ => rfl
    simp only [h.leaf?]
  | deleteEmptyFolder path =>
    exact plain (fun _ => rfl) (fun _ _ => rfl) (Store.matches_deleteEmptyFolder path)

end Operation

end Cabinet
