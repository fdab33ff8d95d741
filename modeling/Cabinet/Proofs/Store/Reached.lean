import Cabinet.Proofs.Store.Removal

/-! Runs of requests from an empty store. Main statements: a request writes and erases rows of its
tenant only, and what each request keeps holds after every run. -/

namespace Cabinet

namespace Operation

variable {t : Tenant} {T : Table}

theorem edits_restoreDocument (h : T.Keeps t) (c : Config) (id : String) :
    T.Edits (Row.IsFiled t) ((restoreDocument id).effect c t T) := by
  obtain ⟨lives, hrestores, hmoves⟩ := Table.exists_restores h id
  simp only [effect, hmoves]
  split
  · exact Table.Edits.refl T
  · exact hrestores.edits.trans ((Table.edits_indexPaths _ t _).mono fun _ hrow => .inl hrow.1)

theorem edits_effect (h : T.Keeps t) (c : Config) (op : Operation) :
    T.Edits (Row.IsFiled t) (op.effect c t T) := by
  have metadata {id : String} : ∀ row : Row, row.IsMetadataOf t id → row.IsFiled t :=
    fun _ hrow => .inl hrow.1
  cases op with
  | saveDocument d =>
    simp only [effect]
    split
    · exact Table.Edits.refl T
    · exact (Table.edits_saved h d).mono fun row hrow => .inl (hrow.elim And.left And.left)
  | deleteDocument id soft =>
    simp only [effect]
    split
    · exact Table.Edits.refl T
    · exact Table.edits_remove h soft (Table.nodup_family t T id)
  | restoreDocument id => exact edits_restoreDocument h c id
  | addTags id tags =>
    simp only [effect]
    split
    · exact Table.Edits.refl T
    · exact (Table.edits_setTags h tags).metadata.mono metadata
  | deleteTag id key => exact (Table.edits_eraseTagRows h).metadata.mono metadata
  | setAttributes id attributes =>
    simp only [effect]
    split
    · exact Table.Edits.refl T
    · exact (Table.edits_attributesSet h c attributes).metadata.mono metadata
  | deleteAttribute id key => exact (Table.edits_attributeDeleted h c).metadata.mono metadata
  | deleteEmptyFolder path =>
    simp only [effect]
    split
    · rename_i a ha
      exact (Table.edits_emptyFolder h ha).mono fun _ hrow => .inl hrow.1
    · exact Table.Edits.refl T
  | findDocument | findDocuments | findDocumentVersion | listDocumentVersions | findChildDocuments
  | listDocumentsByDate | listDeletedDocuments | findTags | findTag | searchTags | findAttributes
  | findAttribute | search | listFolder | folderOfDocument => exact Table.Edits.refl T

end Operation

namespace Store

def fresh (name : String) (maxBatchSize : Nat) (clock : Clock) : Store where
  table := { name, maxBatchSize }
  clock

theorem not_mem_fresh (name : String) (maxBatchSize : Nat) (clock : Clock) (row : Row) :
    row ∉ (fresh name maxBatchSize clock).table := nofun

theorem run_cons (c : Config) (s : Store) (r : Request) (rest : List Request) :
    run c s (r :: rest) = ((s.step c r).1 :: (run c (s.step c r).2 rest).1,
      (run c (s.step c r).2 rest).2) := rfl

theorem run_clock (c : Config) (s : Store) (clock : Clock) (requests : List Request) :
    (run c { s with clock } requests).1 = (run c s requests).1 ∧
      (run c { s with clock } requests).2.table = (run c s requests).2.table := by
  cases requests <;> exact ⟨rfl, rfl⟩

theorem table_step (c : Config) (s : Store) (r : Request) : ∃ n, (s.step c r).2.table =
    { r.operation.effect c r.tenant s.table with batchCalls := n } :=
  Operation.table_perform c r.tenant r.operation { s with clock := r.clock }

theorem run_induction {c : Config} {I : Table → Prop} {requests : List Request} {s : Store}
    (step : ∀ r ∈ requests, ∀ T n, I T →
      I { r.operation.effect c r.tenant T with batchCalls := n })
    (h : I s.table) : I (run c s requests).2.table := by
  induction requests generalizing s with
  | nil => exact h
  | cons r rest ih =>
    rw [run_cons]
    refine ih (fun r' hr' => step r' (List.mem_cons_of_mem r hr')) ?_
    obtain ⟨n, hn⟩ := table_step c s r
    rw [hn]
    exact step r List.mem_cons_self s.table n h

/-- What holds of the store and of what is gathered from the requests and their answers. -/
theorem run_foldl {σ : Type} {c : Config} {I : Store → σ → Prop}
    {gather : σ → Request × Except Error Answer → σ} {requests : List Request} {s : Store} {x : σ}
    (step : ∀ r ∈ requests, ∀ s x, I s x → I (s.step c r).2 (gather x (r, (s.step c r).1)))
    (h : I s x) :
    I (run c s requests).2 ((requests.zip (run c s requests).1).foldl gather x) := by
  induction requests generalizing s x with
  | nil => exact h
  | cons r rest ih =>
    rw [run_cons, List.zip_cons_cons, List.foldl_cons]
    exact ih (fun r' hr' => step r' (List.mem_cons_of_mem r hr')) (step r List.mem_cons_self s x h)

theorem run_take_succ {c : Config} {s : Store} {requests : List Request} {n : Nat}
    (hn : n < requests.length) : (run c s (requests.take (n + 1))).2 =
      ((run c s (requests.take n)).2.step c requests[n]).2 := by
  induction requests generalizing s n with
  | nil => cases hn
  | cons r rest ih =>
    cases n with
    | zero => rfl
    | succ n => exact ih (Nat.lt_of_succ_lt_succ hn)

/-- What holds at first, and stays exactly under a condition on each request, holds all along
exactly when each request meets its condition. -/
theorem run_take_iff {c : Config} {s : Store} {requests : List Request} {I : Table → Prop}
    {Q : Request → Table → Prop} (first : I s.table)
    (step : ∀ n, (hn : n < requests.length) → I (run c s (requests.take n)).2.table →
      (I (run c s (requests.take (n + 1))).2.table ↔
        Q requests[n] (run c s (requests.take n)).2.table)) :
    (∀ n, I (run c s (requests.take n)).2.table) ↔
      ∀ n, (hn : n < requests.length) → Q requests[n] (run c s (requests.take n)).2.table := by
  constructor
  · intro hall n hn
    exact (step n hn (hall n)).1 (hall (n + 1))
  · intro hmeets n
    induction n with
    | zero => exact first
    | succ n ih =>
      by_cases hn : n < requests.length
      · exact (step n hn ih).2 (hmeets n hn)
      · rw [List.take_of_length_le (by omega)] at ih ⊢
        exact ih

end Store

def Tenant.Apart (t u : Tenant) : Prop := ∀ p, Partition.IsOwn t p → ¬Partition.IsOwn u p

theorem Tenant.apart_of_eq (v : Tenant) : ∀ t u : Tenant, t = v → u = v → u ≠ t → u.Apart t := by
  rintro t u rfl rfl hut
  exact absurd rfl hut

theorem Tenant.Apart.symm {t u : Tenant} (h : t.Apart u) : u.Apart t := fun p hu ht => h p ht hu

theorem Row.IsFiled.isForeign {t u : Tenant} {row : Row} (h : row.IsFiled u) (hapart : u.Apart t) :
    row.IsForeign t :=
  fun _ a ha => hapart a.partition (h.entry ha)

namespace Table

def FiledBy (tenants : Tenant → Prop) (T : Table) : Prop :=
  ∀ row ∈ T, ∃ t, tenants t ∧ row.IsFiled t

variable {tenants : Tenant → Prop} {t u : Tenant} {T T' : Table}

theorem FiledBy.keeps (h : T.FiledBy tenants) (hapart : ∀ u, tenants u → u ≠ t → u.Apart t) :
    T.Keeps t := by
  intro row hrow
  obtain ⟨u, hu, hfiled⟩ := h row hrow
  by_cases hut : u = t
  · exact .inl (hut ▸ hfiled)
  · exact .inr (hfiled.isForeign (hapart u hu hut))

theorem FiledBy.of_edits (h : T.FiledBy tenants) (ht : tenants t)
    (he : T.Edits (Row.IsFiled t) T') : T'.FiledBy tenants := by
  intro row hrow
  rcases he.new row hrow with hrow | hrow
  · exact h row hrow
  · exact ⟨t, ht, hrow⟩

theorem Keeps.of_edits_apart (h : T.Keeps t) (hapart : u.Apart t)
    (he : T.Edits (Row.IsFiled u) T') : T'.Keeps t := by
  intro row hrow
  rcases he.new row hrow with hrow | hrow
  · exact h row hrow
  · exact .inr (hrow.isForeign hapart)

theorem Edits.mem_iff_of_apart (he : T.Edits (Row.IsFiled u) T') (hapart : u.Apart t) {row : Row}
    (hrow : row.IsFiled t) : row ∈ T' ↔ row ∈ T := by
  refine he.kept row fun r hr ha => ?_
  have hown : Partition.IsOwn u row.address.partition := ha ▸ hr.entry (i := .primary) rfl
  exact hapart _ hown (hrow.entry (i := .primary) rfl)

end Table

theorem Store.filedBy_fresh (name : String) (maxBatchSize : Nat) (clock : Clock)
    (tenants : Tenant → Prop) : (fresh name maxBatchSize clock).table.FiledBy tenants :=
  fun row hrow => absurd hrow (not_mem_fresh name maxBatchSize clock row)

theorem Store.filedBy_run {tenants : Tenant → Prop}
    (hapart : ∀ t u, tenants t → tenants u → u ≠ t → u.Apart t) {c : Config}
    {requests : List Request} (hrequests : ∀ r ∈ requests, tenants r.tenant) {s : Store}
    (h : s.table.FiledBy tenants) : (run c s requests).2.table.FiledBy tenants := by
  refine run_induction (fun r hr T n hT => ?_) h
  have ht := hrequests r hr
  have hkeeps : T.Keeps r.tenant := hT.keeps fun u hu => hapart r.tenant u ht hu
  exact hT.of_edits ht ((Operation.edits_effect hkeeps c r.operation).counted n)

end Cabinet
