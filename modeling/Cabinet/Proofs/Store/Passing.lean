import Cabinet.Proofs.Store.Simulation

/-! What a request does not touch of the page tokens. Main statement: tokens that were issued before a
request read the same after it, whoever makes it, and the cache holds them as long. -/

namespace Cabinet

/-- From one store to a later one the first `k` tokens stay as they are. -/
structure Store.Passes (k : Nat) (s s' : Store) : Prop where
  clock : s'.clock = s.clock
  issued : s.issued ≤ s'.issued
  held : s'.HoldsIssued
  cache : ∀ n < k, ∀ time, s.clock.now ≤ time →
    s'.cache.read? time (.issued n) = s.cache.read? time (.issued n)
  kept : ∀ n < k, ∀ stored limit, s.clock.now < limit →
    s.cache.Holds (.issued n) stored limit → s'.cache.Holds (.issued n) stored limit

namespace Store.Passes

variable {k : Nat} {s s' s'' : Store}

theorem refl (h : s.HoldsIssued) : s.Passes k s :=
  ⟨rfl, Nat.le_refl _, h, fun _ _ _ _ => rfl, fun _ _ _ _ _ hholds => hholds⟩

theorem trans (h : s.Passes k s') (h' : s'.Passes k s'') : s.Passes k s'' where
  clock := h'.clock.trans h.clock
  issued := h.issued.trans h'.issued
  held := h'.held
  cache n hn time htime := by
    have htime' : s'.clock.now ≤ time := by rwa [h.clock]
    rw [h'.cache n hn time htime', h.cache n hn time htime]
  kept n hn stored limit hlimit hholds := by
    have hlimit' : s'.clock.now < limit := by rwa [h.clock]
    exact h'.kept n hn stored limit hlimit' (h.kept n hn stored limit hlimit hholds)

theorem withTable (h : s.HoldsIssued) (T : Table) : s.Passes k { s with table := T } :=
  ⟨rfl, Nat.le_refl _, h, fun _ _ _ _ => rfl, fun _ _ _ _ _ hholds => hholds⟩

end Store.Passes

def TokenId.IsRecent (k : Nat) (id : TokenId) (s : Store) : Prop :=
  ∃ n, id = .issued n ∧ k ≤ n ∧ n < s.issued

/-- A cursor whose token is stored already, or new. -/
def Cursor.IsSafe (k : Nat) (cursor : Cursor) (s : Store) : Prop :=
  cursor.stored = true ∨ cursor.token.id.IsRecent k s

namespace Action

variable {α β : Type} {k : Nat} {P : Store → Prop} {Q : α → Store → Prop} {R : β → Store → Prop}

/-- From stores with `P` an action passes over the first `k` tokens, and a result of it has `Q`. -/
def Spares (k : Nat) (P : Store → Prop) (a : Action α) (Q : α → Store → Prop) : Prop :=
  ∀ s : Store, s.HoldsIssued → k ≤ s.issued → P s →
    s.Passes k (a.run s).2 ∧ ∀ x, (a.run s).1 = .ok x → Q x (a.run s).2

theorem Spares.bind {a : Action α} {f : α → Action β} (ha : Spares k P a Q)
    (hf : ∀ x, Spares k (Q x) (f x) R) : Spares k P (a >>= f) R := by
  intro s hs hk hP
  obtain ⟨hpasses, hQ⟩ := ha s hs hk hP
  rw [run_bind]
  rcases hrun : a.run s with ⟨e | x, s'⟩
  · rw [hrun] at hpasses
    exact ⟨hpasses, nofun⟩
  · rw [hrun] at hpasses hQ
    obtain ⟨hpasses', hR⟩ := hf x s' hpasses.held (hk.trans hpasses.issued) (hQ x rfl)
    exact ⟨hpasses.trans hpasses', hR⟩

theorem spares_pure {x : α} (h : ∀ s, P s → Q x s) : Spares k P (pure x) Q := by
  intro s hs _ hP
  refine ⟨.refl hs, fun y hy => ?_⟩
  rw [← Except.ok.inj hy]
  exact h s hP

theorem spares_throw (e : Error) : Spares k P (throw e : Action α) Q :=
  fun _ hs _ _ => ⟨.refl hs, nofun⟩

/-- An action that leaves all of the store but the table alone. -/
def OnlyTable (a : Action α) : Prop := ∀ s : Store, ∃ T, (a.run s).2 = { s with table := T }

theorem OnlyTable.spares {a : Action α} (h : a.OnlyTable) :
    Spares k P a fun _ _ => True := by
  intro s hs _ _
  obtain ⟨T, hT⟩ := h s
  rw [hT]
  exact ⟨.withTable hs T, fun _ _ => trivial⟩

theorem spares_table : Spares k P Action.table fun _ => P :=
  fun _ hs _ hP => ⟨.refl hs, fun _ _ => hP⟩

end Action

namespace Paging

open Cabinet.Action

variable {k : Nat} {P : Store → Prop}

theorem spares_issue : Spares k P issue (TokenId.IsRecent k) := by
  intro s hs hk _
  refine ⟨⟨rfl, Nat.le_succ _, fun e he => ?_, fun _ _ _ _ => rfl, fun _ _ _ _ _ hholds => hholds⟩,
    fun id hid => ?_⟩
  · obtain ⟨n, hn, hkey⟩ := hs e he
    exact ⟨n, Nat.lt_succ_of_lt hn, hkey⟩
  · rw [← Except.ok.inj hid]
    exact ⟨s.issued, rfl, hk, Nat.lt_succ_self _⟩

theorem spares_save (c : Config) (token : Token) :
    Spares k (token.id.IsRecent k) (save c token) fun _ _ => True := by
  intro s hs _ hrecent
  obtain ⟨n, hid, hkn, hn⟩ := hrecent
  have hne (m : Nat) (hm : m < k) : TokenId.issued m ≠ token.id := by
    intro he
    have hmn : m = n := TokenId.issued.inj (he.trans hid)
    omega
  refine ⟨⟨rfl, Nat.le_refl _, fun e he => ?_, fun m hm time htime => ?_,
    fun m hm stored limit hlimit hholds => ?_⟩, fun _ _ => trivial⟩
  · rcases Cache.mem_write he with hkey | he
    · exact ⟨n, hn, hkey.trans hid⟩
    · exact hs e he
  · exact Cache.read?_write_ne htime (hne m hm)
  · exact hholds.write hlimit (hne m hm)

theorem spares_load (field : String) (id : TokenId) :
    Spares k P (load field id) fun _ => P := by
  intro s hs _ hP
  rw [run_load]
  exact ⟨.refl hs, fun _ _ => hP⟩

theorem spares_firstPage (limit : Nat) :
    Spares k P (firstPage limit) (Cursor.IsSafe k) :=
  spares_issue.bind fun _ => spares_pure fun _ hid => .inr hid

theorem spares_resolve (c : Config) (request : PageRequest) :
    Spares k (fun _ => True) (resolve c request) (Cursor.IsSafe k) := by
  unfold resolve
  split
  · exact spares_throw _
  · exact (spares_load _ _).bind fun _ => spares_pure fun _ _ => .inl rfl
  · apply (spares_load _ _).bind
    intro token
    split
    · exact (spares_load _ _).bind fun _ => spares_pure fun _ _ => .inl rfl
    · exact spares_firstPage _
  · exact spares_firstPage _

theorem spares_complete (c : Config) (cursor : Cursor) (last : Option PageKey) :
    Spares k (cursor.IsSafe k) (complete c cursor last) fun _ _ => True := by
  have hcurrent : Spares k (cursor.IsSafe k) (storeCurrent c cursor last) fun _ _ => True := by
    unfold storeCurrent
    split
    · exact spares_pure fun _ _ => trivial
    · rename_i hstored
      intro s hs hk hsafe
      exact spares_save c _ s hs hk (hsafe.resolve_left hstored)
  have hnext : Spares k (fun _ => True) (storeNext c cursor.token last) fun _ _ => True := by
    cases last with
    | none => exact spares_pure fun _ _ => trivial
    | some start =>
      apply spares_issue.bind
      intro id
      have hsave : Spares k (id.IsRecent k) (save c (cursor.token.next id start)) fun _ _ => True :=
        spares_save c (cursor.token.next id start)
      exact hsave.bind fun _ => spares_pure fun _ _ => trivial
  rw [complete_eq]
  exact hcurrent.bind fun _ => hnext.bind fun _ => spares_pure fun _ _ => trivial

theorem spares_query (c : Config) (q : Query) (request : PageRequest) :
    Spares k (fun _ => True) (query c q request) fun _ _ => True :=
  (spares_resolve c request).bind fun _ => spares_table.bind fun _ =>
    (spares_complete c _ _).bind fun _ => spares_pure fun _ _ => trivial

theorem spares_page {α : Type} (c : Config) (q : Query) (request : PageRequest)
    (f : Page Row → α) :
    Spares k (fun _ => True) (do return f (← query c q request) : Action α) fun _ _ => True :=
  (spares_query c q request).bind fun _ => spares_pure fun _ _ => trivial

end Paging

namespace Operation

open Cabinet.Action

theorem onlyTable_saveDocument (t : Tenant) (d : Document) :
    (Store.saveDocument t d).OnlyTable := by
  intro s
  rw [Store.run_saveDocument]
  cases s.table.saveFault? t d <;> exact ⟨_, rfl⟩

theorem onlyTable_deleteDocument (t : Tenant) (id : String) (soft : Bool) :
    (Store.deleteDocument t id soft).OnlyTable := by
  intro s
  rw [Store.run_deleteDocument]
  split <;> exact ⟨_, rfl⟩

theorem onlyTable_restoreDocument (t : Tenant) (id : String) :
    (Store.restoreDocument t id).OnlyTable := by
  intro s
  rw [Store.run_restoreDocument]
  split
  · exact ⟨_, rfl⟩
  · split
    · exact ⟨_, rfl⟩
    · split <;> exact ⟨_, rfl⟩

theorem onlyTable_addTags (t : Tenant) (id : String) (tags : List Tag) :
    (Store.addTags t id tags).OnlyTable := by
  intro s
  rw [Store.run_addTags]
  split <;> exact ⟨_, rfl⟩

theorem onlyTable_setAttributes (c : Config) (t : Tenant) (id : String)
    (attributes : List Attribute) : (Store.setAttributes c t id attributes).OnlyTable := by
  intro s
  rw [Store.run_setAttributes]
  split <;> exact ⟨_, rfl⟩

theorem onlyTable_deleteAttribute (c : Config) (t : Tenant) (id key : String) :
    (Store.deleteAttribute c t id key).OnlyTable := by
  intro s
  rw [Store.run_deleteAttribute]
  exact ⟨_, rfl⟩

theorem onlyTable_deleteEmptyFolder (t : Tenant) (path : String) :
    (Store.deleteEmptyFolder t path).OnlyTable := by
  intro s
  rw [Store.run_deleteEmptyFolder]
  split <;> exact ⟨_, rfl⟩

theorem onlyTable_findDocumentVersion (t : Tenant) (id : String) (n : UInt32) :
    (Store.findDocumentVersion t id n).OnlyTable := by
  intro s
  rw [Store.run_findDocumentVersion]
  exact ⟨_, rfl⟩

theorem onlyTable_findDocuments (c : Config) (t : Tenant) (ids : List String) :
    (Store.findDocuments c t ids).OnlyTable := by
  intro s
  rw [Store.run_findDocuments]
  exact ⟨_, rfl⟩

theorem spares_search (k : Nat) (c : Config) (t : Tenant) (criteria : Criteria)
    (request : PageRequest) :
    Spares k (fun _ => True) (Store.search c t criteria request) fun _ _ => True := by
  unfold Store.search
  dsimp only
  split
  · exact (spares_throw _).bind fun (x : PUnit) => (fun _ _ _ (h : False) => h.elim)
  · split
    · exact (Paging.spares_query c _ request).bind fun _ =>
        (onlyTable_findDocuments c t _).spares.bind fun _ => spares_pure fun _ _ => trivial
    · exact spares_table.bind fun _ =>
        (onlyTable_findDocuments c t _).spares.bind fun _ => spares_pure fun _ _ => trivial

theorem spares_perform (k : Nat) (c : Config) (t : Tenant) (op : Operation) :
    Spares k (fun _ => True) (op.perform c t) fun _ _ => True := by
  have plain {α : Type} {a : Action α} (h : a.OnlyTable) (f : α → Answer) :
      Spares k (fun _ => True) (do return f (← a) : Action Answer) fun _ _ => True :=
    h.spares.bind fun _ => spares_pure fun _ _ => trivial
  have paged {α : Type} {a : Action α} (h : Spares k (fun _ => True) a fun _ _ => True)
      (f : α → Answer) :
      Spares k (fun _ => True) (do return f (← a) : Action Answer) fun _ _ => True :=
    h.bind fun _ => spares_pure fun _ _ => trivial
  cases op with
  | saveDocument d => exact plain (onlyTable_saveDocument t d) _
  | findDocuments ids => exact plain (onlyTable_findDocuments c t ids) _
  | findDocumentVersion id n => exact plain (onlyTable_findDocumentVersion t id n) _
  | deleteDocument id soft => exact plain (onlyTable_deleteDocument t id soft) _
  | restoreDocument id => exact plain (onlyTable_restoreDocument t id) _
  | addTags id tags => exact plain (onlyTable_addTags t id tags) fun _ => .done
  | setAttributes id attributes =>
    exact plain (onlyTable_setAttributes c t id attributes) fun _ => .done
  | deleteAttribute id key => exact plain (onlyTable_deleteAttribute c t id key) _
  | deleteEmptyFolder path => exact plain (onlyTable_deleteEmptyFolder t path) fun _ => .done
  | findDocument | listDocumentVersions | findChildDocuments | findTags | findTag | deleteTag
  | findAttributes | findAttribute | folderOfDocument => exact plain (fun _ => ⟨_, rfl⟩) _
  | listDocumentsByDate day page => exact paged (Paging.spares_page c _ page Store.documentsOnly) _
  | listDeletedDocuments day page => exact paged (Paging.spares_page c _ page Store.documentsOnly) _
  | searchTags key value page => exact paged (Paging.spares_page c _ page _) _
  | search criteria page => exact paged (spares_search k c t criteria page) _
  | listFolder path page =>
    have hpages : Spares k (fun _ => True) (Store.listFolder c t path page) fun _ _ => True := by
      rw [Store.listFolder_eq]
      exact Paging.spares_page c _ page _
    exact paged hpages _

end Operation

end Cabinet
