import Mathlib.Algebra.BigOperators.Group.Finset.Basic
import Mathlib.Algebra.Order.Floor.Div
import Cabinet.Proofs.Distinct
import Cabinet.Proofs.Table.Contents
import Cabinet.Table.Batch

/-! Reading in batches. Main statements: reading a request is making one call after another and
gathering the answers, no call is empty or too large, and each collection gives what stands at the
keys that were asked of it. -/

namespace Cabinet

namespace BatchRequest

variable {r : BatchRequest} {name : String} {key : Address}

theorem mem_keys : key ∈ r.keys name ↔ (name, key) ∈ r.wanted := by
  simp [keys]

theorem mem_collections : name ∈ r.collections ↔ ∃ key, (name, key) ∈ r.wanted := by
  simp [collections]

theorem nodup_collections (r : BatchRequest) : r.collections.Nodup := nodup_distinct _ _

theorem nodup_keys (r : BatchRequest) (name : String) : (r.keys name).Nodup := nodup_distinct _ _

theorem length_keys (r : BatchRequest) (name : String) :
    (r.keys name).length = (r.wanted.toFinset.filter (·.1 = name)).card := by
  have himage : (r.keys name).toFinset.image (Prod.mk name) =
      r.wanted.toFinset.filter (·.1 = name) := by
    ext ⟨n, key⟩
    simp only [Finset.mem_image, List.mem_toFinset, mem_keys, Finset.mem_filter, Prod.mk.injEq]
    constructor
    · rintro ⟨key, hkey, rfl, rfl⟩
      exact ⟨hkey, rfl⟩
    · rintro ⟨hkey, rfl⟩
      exact ⟨key, hkey, rfl, rfl⟩
  rw [← himage, Finset.card_image_of_injective _ (Prod.mk_right_injective name),
    List.toFinset_card_of_nodup (r.nodup_keys name)]

theorem toFinset_collections (r : BatchRequest) :
    r.collections.toFinset = r.wanted.toFinset.image Prod.fst := by
  ext name
  simp [mem_collections]

theorem pairwise_keys (r : BatchRequest) (name : String) : (r.keys name).Pairwise (· < ·) := by
  have hordered : (r.keys name).Pairwise fun a b => decide (a < b) = true := by
    refine pairwise_distinct (fun a b h => ?_) (fun a b c h => ?_) (fun a b hne h => ?_) _
    · exact decide_eq_false (Address.lt_asymm (of_decide_eq_true h))
    · by_cases hab : a < b
      · exact .inl (decide_eq_true hab)
      · refine .inr (decide_eq_true ?_)
        by_cases hba : b < a
        · exact Address.lt_trans hba (of_decide_eq_true h)
        · exact Address.eq_of_not_lt hab hba ▸ of_decide_eq_true h
    · refine decide_eq_true (Decidable.by_contra fun hab => hne ?_)
      exact Address.eq_of_not_lt hab (of_decide_eq_false h)
  exact hordered.imp of_decide_eq_true

inductive Ask where
  | one (name : String) (key : Address)
  | several (name : String) (keys : List Address)
  deriving DecidableEq

def Ask.wanted : Ask → List (String × Address)
  | .one name key => [(name, key)]
  | .several name keys => keys.map (name, ·)

def ask (r : BatchRequest) : Ask → BatchRequest
  | .one name key => r.add name key
  | .several name keys => r.extend name keys

def ofAsks (asks : List Ask) : BatchRequest := asks.foldl ask {}

def asked (asks : List Ask) : Finset (String × Address) := (asks.flatMap Ask.wanted).toFinset

theorem wanted_foldl_ask (asks : List Ask) (r : BatchRequest) :
    (asks.foldl ask r).wanted = r.wanted ++ asks.flatMap Ask.wanted := by
  induction asks generalizing r with
  | nil => simp
  | cons a asks ih =>
    have hstep : (r.ask a).wanted = r.wanted ++ a.wanted := by cases a <;> rfl
    rw [List.foldl_cons, ih, hstep, List.flatMap_cons, List.append_assoc]

theorem toFinset_wanted_ofAsks (asks : List Ask) : (ofAsks asks).wanted.toFinset = asked asks := by
  rw [ofAsks, wanted_foldl_ask]
  rfl

theorem mem_wanted_ofAsks {asks : List Ask} {pair : String × Address} :
    pair ∈ (ofAsks asks).wanted ↔ pair ∈ asked asks := by
  rw [← toFinset_wanted_ofAsks, List.mem_toFinset]

end BatchRequest

namespace Batch

variable {α : Type} {size : Nat} {T T' : Table} {name : String} {r : BatchRequest}
  {names : List String} {rows : List Row}

theorem flatten_chunksFrom (size : Nat) (started as : List α) :
    (chunksFrom size started as).flatten = started ++ as := by
  induction as generalizing started with
  | nil =>
    unfold chunksFrom
    split <;> simp_all
  | cons a as ih =>
    unfold chunksFrom
    split
    · rw [ih, List.append_assoc]
      rfl
    · rw [List.flatten_cons, ih, List.append_assoc]
      rfl

theorem flatten_chunks (size : Nat) (as : List α) : (chunks size as).flatten = as :=
  flatten_chunksFrom size [] as

theorem length_of_mem_chunksFrom {started as chunk : List α} (hstarted : started.length < size)
    (h : chunk ∈ chunksFrom size started as) : 0 < chunk.length ∧ chunk.length ≤ size := by
  induction as generalizing started with
  | nil =>
    unfold chunksFrom at h
    split at h
    · cases h
    · rename_i hne
      rw [List.mem_singleton.1 h]
      exact ⟨List.length_pos_iff.2 hne, hstarted.le⟩
  | cons a as ih =>
    have hlength : (started ++ [a]).length = started.length + 1 := by simp
    unfold chunksFrom at h
    split at h
    · exact ih (by omega) h
    · rcases List.mem_cons.1 h with rfl | h
      · omega
      · exact ih (by rw [List.length_nil]; omega) h

theorem length_of_mem_chunks {as chunk : List α} (hsize : 0 < size) (h : chunk ∈ chunks size as) :
    0 < chunk.length ∧ chunk.length ≤ size :=
  length_of_mem_chunksFrom (by rw [List.length_nil]; exact hsize) h

theorem length_chunksFrom {started as : List α} (hstarted : started.length < size) :
    (chunksFrom size started as).length = (started.length + as.length) ⌈/⌉ size := by
  have hsize : 0 < size := Nat.zero_lt_of_lt hstarted
  induction as generalizing started with
  | nil =>
    unfold chunksFrom
    split
    · simp_all
    · rename_i hne
      have hpos := List.length_pos_iff.2 hne
      rw [Nat.ceilDiv_eq_add_pred_div, List.length_singleton, List.length_nil, eq_comm,
        Nat.div_eq_iff hsize]
      omega
  | cons a as ih =>
    have hlength : (started ++ [a]).length = started.length + 1 := by simp
    unfold chunksFrom
    split
    · rw [ih (by omega), hlength, List.length_cons, Nat.add_right_comm, Nat.add_assoc]
    · -- a full piece, and the pieces of what follows
      have hfull : started.length + (a :: as).length = as.length + size := by
        rw [List.length_cons]
        omega
      rw [List.length_cons, ih (by rw [List.length_nil]; exact hsize), hfull, List.length_nil,
        Nat.zero_add, Nat.ceilDiv_eq_add_pred_div, Nat.ceilDiv_eq_add_pred_div,
        ← Nat.add_div_right _ hsize]
      congr 1
      omega

theorem length_chunks (hsize : 0 < size) (as : List α) :
    (chunks size as).length = as.length ⌈/⌉ size := by
  rw [chunks, length_chunksFrom (by rw [List.length_nil]; exact hsize), List.length_nil,
    Nat.zero_add]

/-- One batch: keys to read in one collection. -/
structure Call where
  collection : String
  keys : List Address
  deriving DecidableEq

/-- The batches for some collections, with at most `size` keys in each. -/
def calls (size : Nat) (r : BatchRequest) (names : List String) : List Call :=
  names.flatMap fun name => (chunks size (r.keys name)).map (Call.mk name)

theorem mem_calls {call : Call} :
    call ∈ calls size r names ↔
      call.collection ∈ names ∧ call.keys ∈ chunks size (r.keys call.collection) := by
  rw [calls, List.mem_flatMap]
  constructor
  · rintro ⟨name, hname, hcall⟩
    obtain ⟨keys, hkeys, rfl⟩ := List.mem_map.1 hcall
    exact ⟨hname, hkeys⟩
  · rintro ⟨hname, hkeys⟩
    exact ⟨call.collection, hname, List.mem_map.2 ⟨call.keys, hkeys, rfl⟩⟩

theorem length_keys_of_mem_calls {call : Call} (hsize : 0 < size) (h : call ∈ calls size r names) :
    0 < call.keys.length ∧ call.keys.length ≤ size :=
  length_of_mem_chunks hsize (mem_calls.1 h).2

theorem wanted_of_mem_calls {call : Call} {key : Address} (hcall : call ∈ calls size r names)
    (hkey : key ∈ call.keys) : (call.collection, key) ∈ r.wanted := by
  rw [← BatchRequest.mem_keys, ← flatten_chunks size (r.keys call.collection)]
  exact List.mem_flatten.2 ⟨call.keys, (mem_calls.1 hcall).2, hkey⟩

theorem exists_mem_calls (size : Nat) {key : Address} (h : (name, key) ∈ r.wanted) :
    ∃ call ∈ calls size r r.collections, call.collection = name ∧ key ∈ call.keys := by
  have hkey : key ∈ (chunks size (r.keys name)).flatten := by
    rw [flatten_chunks]
    exact BatchRequest.mem_keys.2 h
  obtain ⟨keys, hkeys, hmem⟩ := List.mem_flatten.1 hkey
  have hname : name ∈ r.collections := BatchRequest.mem_collections.2 ⟨key, h⟩
  exact ⟨⟨name, keys⟩, mem_calls.2 ⟨hname, hkeys⟩, rfl, hmem⟩

theorem length_calls (hsize : 0 < size) (r : BatchRequest) :
    (calls size r r.collections).length = ∑ name ∈ r.wanted.toFinset.image Prod.fst,
      (r.wanted.toFinset.filter (·.1 = name)).card ⌈/⌉ size := by
  have hlength (name : String) : ((chunks size (r.keys name)).map (Call.mk name)).length =
      (r.wanted.toFinset.filter (·.1 = name)).card ⌈/⌉ size := by
    rw [List.length_map, length_chunks hsize, r.length_keys]
  rw [← r.toFinset_collections, List.sum_toFinset _ r.nodup_collections, calls,
    List.length_flatMap, List.map_congr_left fun name _ => hlength name]

theorem length_calls_extend (hsize : 0 < size) (name : String) (keys : List Address) :
    (calls size (.extend {} name keys) (BatchRequest.extend {} name keys).collections).length =
      keys.toFinset.card ⌈/⌉ size := by
  generalize hr : BatchRequest.extend {} name keys = r
  have hwanted (other : String) (key : Address) :
      (other, key) ∈ r.wanted ↔ other = name ∧ key ∈ keys := by
    simp [← hr, BatchRequest.extend, and_comm, eq_comm]
  have hkeys : (r.keys name).toFinset = keys.toFinset := by
    ext key
    simp [BatchRequest.mem_keys, hwanted]
  have hnames : r.wanted.toFinset.image Prod.fst ⊆ {name} := by
    intro other hother
    obtain ⟨pair, hpair, rfl⟩ := Finset.mem_image.1 hother
    exact Finset.mem_singleton.2 ((hwanted _ _).1 (List.mem_toFinset.1 hpair)).1
  rw [length_calls hsize, Finset.sum_subset hnames, Finset.sum_singleton, ← r.length_keys,
    ← List.toFinset_card_of_nodup (r.nodup_keys name), hkeys]
  -- in another collection no key is asked for
  intro other _ hother
  rw [Finset.filter_eq_empty_iff.2, Finset.card_empty, zero_ceilDiv]
  rintro pair hpair rfl
  exact hother (Finset.mem_image_of_mem _ hpair)

/-- Makes one call after another, up to the first that is refused. -/
def serve : List Call → Table → Except Error (List (String × List Row)) × Table
  | [], T => (.ok [], T)
  | call :: rest, T =>
    match T.batchGet call.collection call.keys with
    | .error e => (.error e, T)
    | .ok (rows, T) =>
      match serve rest T with
      | (.ok answers, T) => (.ok ((call.collection, rows) :: answers), T)
      | (.error e, T) => (.error e, T)

def gather (names : List String) (answers : List (String × List Row)) : List (String × List Row) :=
  (names.map fun name => (name, (answers.filter (·.1 = name)).flatMap (·.2))).filter (·.2 ≠ [])

theorem serve_append (front back : List Call) (T : Table) : serve (front ++ back) T =
    match serve front T with
    | (.ok answers, T') => ((serve back T').1.map (answers ++ ·), (serve back T').2)
    | (.error e, T') => (.error e, T') := by
  induction front generalizing T with
  | nil =>
    rw [List.nil_append, serve]
    simp only [List.nil_append]
    rcases serve back T with ⟨e | answers, T'⟩ <;> rfl
  | cons call rest ih =>
    rw [List.cons_append, serve, serve]
    rcases T.batchGet call.collection call.keys with e | ⟨rows, T'⟩
    · rfl
    · simp only [ih]
      rcases serve rest T' with ⟨e | answers, T''⟩
      · rfl
      · simp only
        rcases serve back T'' with ⟨e | more, T'''⟩ <;> rfl

theorem exists_call_of_serve {calls : List Call} {answers : List (String × List Row)}
    (h : serve calls T = (.ok answers, T')) :
    ∀ answer ∈ answers, ∃ call ∈ calls, call.collection = answer.1 := by
  induction calls generalizing T answers with
  | nil =>
    rw [serve] at h
    cases h
    nofun
  | cons call rest ih =>
    rw [serve] at h
    rcases hget : T.batchGet call.collection call.keys with e | ⟨rows, U⟩ <;> rw [hget] at h
    · cases h
    · rcases hrest : serve rest U with ⟨e | more, U'⟩ <;> simp only [hrest] at h
      · cases h
      · cases h
        refine List.forall_mem_cons.2 ⟨⟨call, List.mem_cons_self, rfl⟩, fun answer hanswer => ?_⟩
        obtain ⟨other, hother, he⟩ := ih hrest answer hanswer
        exact ⟨other, List.mem_cons_of_mem call hother, he⟩

theorem readChunks_eq_serve (name : String) (batches : List (List Address)) (T : Table) :
    readChunks name batches T =
      ((serve (batches.map (Call.mk name)) T).1.map (·.flatMap (·.2)),
        (serve (batches.map (Call.mk name)) T).2) := by
  induction batches generalizing T with
  | nil => rfl
  | cons keys rest ih =>
    rw [List.map_cons, readChunks, serve]
    rcases T.batchGet name keys with e | ⟨rows, T'⟩
    · rfl
    · simp only [ih]
      rcases serve (rest.map (Call.mk name)) T' with ⟨e | more, T''⟩ <;> rfl

theorem gather_cons (hname : name ∉ names) {front back : List (String × List Row)}
    (hfront : ∀ answer ∈ front, answer.1 = name)
    (hback : ∀ answer ∈ back, answer.1 ∈ names) : gather (name :: names) (front ++ back) =
      if front.flatMap (·.2) = [] then gather names back
      else (name, front.flatMap (·.2)) :: gather names back := by
  have hfirst : (front ++ back).filter (·.1 = name) = front := by
    rw [List.filter_append, List.filter_eq_self.2 fun answer h => decide_eq_true (hfront answer h),
      List.filter_eq_nil_iff.2, List.append_nil]
    intro answer h
    rw [decide_eq_true_iff]
    rintro rfl
    exact hname (hback answer h)
  have hrest : ∀ n ∈ names, (front ++ back).filter (·.1 = n) = back.filter (·.1 = n) := by
    intro n hn
    rw [List.filter_append, List.filter_eq_nil_iff.2, List.nil_append]
    intro answer h
    rw [hfront answer h, decide_eq_true_iff]
    rintro rfl
    exact hname hn
  rw [gather, List.map_cons, hfirst, List.map_congr_left fun n hn => by rw [hrest n hn],
    List.filter_cons, ← gather]
  by_cases hnil : front.flatMap (·.2) = [] <;> simp [hnil]

theorem readCollections_eq_serve (hnames : names.Nodup) (size : Nat)
    (r : BatchRequest) (T : Table) : readCollections size r names T =
      ((serve (calls size r names) T).1.map (gather names), (serve (calls size r names) T).2) := by
  induction names generalizing T with
  | nil => rfl
  | cons name rest ih =>
    obtain ⟨hname, hrest⟩ := List.nodup_cons.1 hnames
    rw [calls, List.flatMap_cons, ← calls, serve_append, readCollections, readChunks_eq_serve]
    rcases hfront : serve ((chunks size (r.keys name)).map (Call.mk name)) T with ⟨e | front, T'⟩
    · rfl
    · simp only [Except.map, ih hrest]
      rcases hback : serve (calls size r rest) T' with ⟨e | back, T''⟩
      · rfl
      · refine Prod.ext (congrArg Except.ok (gather_cons hname ?_ ?_).symm) rfl
        · intro answer hanswer
          obtain ⟨call, hcall, he⟩ := exists_call_of_serve hfront answer hanswer
          obtain ⟨keys, -, rfl⟩ := List.mem_map.1 hcall
          exact he.symm
        · intro answer hanswer
          obtain ⟨call, hcall, he⟩ := exists_call_of_serve hback answer hanswer
          rw [← he]
          exact (mem_calls.1 hcall).1

theorem chunkSize_pos (size : Nat) (T : Table) : 0 < chunkSize size T := by
  unfold chunkSize
  omega

/-- Reading is making the calls and gathering their answers. -/
theorem read_eq_serve (size : Nat) (r : BatchRequest) (T : Table) : read size r T =
    ((serve (calls (chunkSize size T) r r.collections) T).1.map (gather r.collections),
      (serve (calls (chunkSize size T) r r.collections) T).2) :=
  readCollections_eq_serve r.nodup_collections (chunkSize size T) r T

theorem table_serve (calls : List Call) (T : Table) :
    ∃ n, (serve calls T).2 = { T with batchCalls := n } := by
  induction calls generalizing T with
  | nil => exact ⟨T.batchCalls, rfl⟩
  | cons call rest ih =>
    rw [serve, Table.batchGet]
    by_cases hlarge : T.maxBatchSize < call.keys.length
    · simp only [hlarge, if_true]
      exact ⟨T.batchCalls, rfl⟩
    · simp only [hlarge, if_false]
      obtain ⟨n, hn⟩ := ih { T with batchCalls := T.batchCalls + 1 }
      refine ⟨n, ?_⟩
      split <;> rename_i h <;> rw [h] at hn <;> exact hn

theorem table_read (size : Nat) (r : BatchRequest) (T : Table) :
    ∃ n, (read size r T).2 = { T with batchCalls := n } := by
  rw [read_eq_serve]
  exact table_serve _ T

theorem serve_congr {calls : List Call} (hsize : T.maxBatchSize = T'.maxBatchSize)
    (hget : ∀ call ∈ calls, ∀ key ∈ call.keys,
      (T.collection call.collection).get? key = (T'.collection call.collection).get? key) :
    (serve calls T).1 = (serve calls T').1 := by
  induction calls generalizing T T' with
  | nil => rfl
  | cons call rest ih =>
    obtain ⟨hcall, hrest⟩ := List.forall_mem_cons.1 hget
    have hrows : call.keys.filterMap (T.collection call.collection).get? =
        call.keys.filterMap (T'.collection call.collection).get? := List.filterMap_congr hcall
    rw [serve, serve, Table.batchGet, Table.batchGet, hrows]
    by_cases hlarge : T'.maxBatchSize < call.keys.length
    · simp only [hsize, hlarge, if_true]
    · have hlarge' : ¬T.maxBatchSize < call.keys.length := hsize ▸ hlarge
      simp only [hlarge, hlarge', if_false]
      have hmore : (serve rest { T with batchCalls := T.batchCalls + 1 }).1 =
          (serve rest { T' with batchCalls := T'.batchCalls + 1 }).1 := ih hsize hrest
      generalize serve rest { T with batchCalls := T.batchCalls + 1 } = left at hmore ⊢
      generalize serve rest { T' with batchCalls := T'.batchCalls + 1 } = right at hmore ⊢
      obtain ⟨x, U⟩ := left
      obtain ⟨x', U'⟩ := right
      obtain rfl : x = x' := hmore
      cases x <;> rfl

theorem read_congr (hsize : T.maxBatchSize = T'.maxBatchSize) (hget : ∀ name key,
    (name, key) ∈ r.wanted → (T.collection name).get? key = (T'.collection name).get? key) :
    (read size r T).1 = (read size r T').1 := by
  have hchunk : chunkSize size T = chunkSize size T' := by
    unfold chunkSize
    rw [hsize]
  rw [read_eq_serve, read_eq_serve, hchunk]
  refine congrArg (Except.map (gather r.collections)) (serve_congr hsize ?_)
  intro call hcall key hkey
  exact hget call.collection key (wanted_of_mem_calls hcall hkey)

/-- Where the limit is zero, there is no batch that can be read. -/
theorem wanted_eq_nil_of_read (hmax : T.maxBatchSize = 0) {found : List (String × List Row)}
    (h : (read size r T).1 = .ok found) : r.wanted = [] := by
  have hcalls : calls (chunkSize size T) r r.collections = [] := by
    cases hmade : calls (chunkSize size T) r r.collections with
    | nil => rfl
    | cons call rest =>
      have hlength := length_keys_of_mem_calls (chunkSize_pos size T)
        (hmade ▸ List.mem_cons_self : call ∈ calls (chunkSize size T) r r.collections)
      rw [read_eq_serve, hmade, serve, Table.batchGet, if_pos (by omega)] at h
      cases h
  refine List.eq_nil_iff_forall_not_mem.2 fun ⟨name, key⟩ hwanted => ?_
  obtain ⟨call, hcall, -⟩ := exists_mem_calls (chunkSize size T) hwanted
  rw [hcalls] at hcall
  cases hcall

theorem serve_eq {calls : List Call} (h : ∀ call ∈ calls, call.keys.length ≤ T.maxBatchSize) :
    serve calls T =
      (.ok (calls.map fun call =>
          (call.collection, call.keys.filterMap (T.collection call.collection).get?)),
        { T with batchCalls := T.batchCalls + calls.length }) := by
  induction calls generalizing T with
  | nil => rfl
  | cons call rest ih =>
    obtain ⟨hcall, hrest⟩ := List.forall_mem_cons.1 h
    have hmore := ih (T := { T with batchCalls := T.batchCalls + 1 }) hrest
    rw [serve, Table.batchGet, if_neg (Nat.not_lt.2 hcall)]
    simp only [hmore, List.map_cons, List.length_cons, Nat.add_assoc, Nat.add_comm 1]
    rfl

theorem gather_answers (size : Nat) (r : BatchRequest) (hnames : names.Nodup)
    (find : String → Address → Option Row) :
    gather names ((calls size r names).map fun call =>
        (call.collection, call.keys.filterMap (find call.collection))) =
      (names.map fun name => (name, (r.keys name).filterMap (find name))).filter (·.2 ≠ []) := by
  induction names with
  | nil => rfl
  | cons name rest ih =>
    obtain ⟨hname, hrest⟩ := List.nodup_cons.1 hnames
    rw [calls, List.flatMap_cons, ← calls, List.map_append, gather_cons hname, ih hrest]
    · have hfront : (((chunks size (r.keys name)).map (Call.mk name)).map fun call =>
          (call.collection, call.keys.filterMap (find call.collection))).flatMap (·.2) =
            (r.keys name).filterMap (find name) := by
        conv_rhs => rw [← flatten_chunks size (r.keys name), List.filterMap_flatten]
        rw [List.map_map, List.flatMap_map]
        rfl
      rw [hfront, List.map_cons, List.filter_cons]
      by_cases hnil : (r.keys name).filterMap (find name) = [] <;> simp [hnil]
    · intro answer hanswer
      obtain ⟨call, hcall, rfl⟩ := List.mem_map.1 hanswer
      obtain ⟨keys, -, rfl⟩ := List.mem_map.1 hcall
      rfl
    · intro answer hanswer
      obtain ⟨call, hcall, rfl⟩ := List.mem_map.1 hanswer
      exact (mem_calls.1 hcall).1

/-- What stands at the keys of a request, without the collections that have none of them. -/
def holdings (T : Table) (r : BatchRequest) : List (String × List Row) :=
  (r.collections.map fun name =>
    (name, (r.keys name).filterMap (T.collection name).get?)).filter (·.2 ≠ [])

theorem chunkSize_eq (hmax : 0 < T.maxBatchSize) (size : Nat) :
    chunkSize size T = min (max size 1) T.maxBatchSize := by
  unfold chunkSize
  omega

theorem read_eq (hmax : 0 < T.maxBatchSize) (size : Nat) (r : BatchRequest) :
    read size r T = (.ok (holdings T r), { T with
      batchCalls := T.batchCalls + (calls (chunkSize size T) r r.collections).length }) := by
  have hsmall : ∀ call ∈ calls (chunkSize size T) r r.collections,
      call.keys.length ≤ T.maxBatchSize := by
    intro call hcall
    have hlength := (length_keys_of_mem_calls (chunkSize_pos size T) hcall).2
    rw [chunkSize_eq hmax] at hlength
    omega
  have hgather := gather_answers (chunkSize size T) r r.nodup_collections fun name =>
    (T.collection name).get?
  rw [read_eq_serve, serve_eq hsmall]
  simp only [Except.map, hgather]
  rfl

theorem lookup_filter_map {find : String → List Row} (names : List String) :
    ((names.map fun name => (name, find name)).filter (·.2 ≠ [])).lookup name = some rows ↔
      name ∈ names ∧ rows ≠ [] ∧ find name = rows := by
  induction names with
  | nil => simp
  | cons n names ih =>
    rw [List.map_cons, List.filter_cons]
    by_cases hn : name = n
    · subst hn
      by_cases hnil : find name = []
      · simp only [hnil, ne_eq, not_true_eq_false, decide_false, Bool.false_eq_true, if_false, ih]
        grind
      · simp [hnil]
        grind
    · by_cases hnil : find n = []
      · simpa [hnil, hn] using ih
      · simpa [hnil, hn, List.lookup_cons, beq_eq_false_iff_ne.2 hn] using ih

theorem lookup_holdings : (holdings T r).lookup name = some rows ↔
    rows ≠ [] ∧ (r.keys name).filterMap (T.collection name).get? = rows := by
  rw [holdings, lookup_filter_map, and_iff_right_of_imp]
  rintro ⟨hne, hrows⟩
  -- a collection with rows was asked for keys
  obtain ⟨row, hrow⟩ := List.exists_mem_of_ne_nil rows hne
  obtain ⟨key, hkey, -⟩ := List.mem_filterMap.1 (hrows ▸ hrow)
  exact BatchRequest.mem_collections.2 ⟨key, BatchRequest.mem_keys.1 hkey⟩

theorem getD_lookup_holdings (T : Table) (r : BatchRequest) (name : String) :
    ((holdings T r).lookup name).getD [] = (r.keys name).filterMap (T.collection name).get? := by
  cases hlookup : (holdings T r).lookup name with
  | some rows => exact (lookup_holdings.1 hlookup).2.symm
  | none =>
    by_contra hne
    rw [Option.getD_none, ← ne_eq, ne_comm] at hne
    rw [lookup_holdings.2 ⟨hne, rfl⟩] at hlookup
    cases hlookup

theorem pairwise_holding (T : Table) (r : BatchRequest) (name : String) :
    ((r.keys name).filterMap (T.collection name).get?).Pairwise
      fun a b => a.address < b.address := by
  refine (r.pairwise_keys name).filterMap _ fun a b hab row hrow row' hrow' => ?_
  rw [(Rows.get?_eq_some_iff.1 hrow).2, (Rows.get?_eq_some_iff.1 hrow').2]
  exact hab

/-- What a table has of the keys asked for: an entry for each collection that has a row at one of
them, with these rows, each once and in order. -/
structure Answers (T : Table) (asked : Finset (String × Address))
    (found : List (String × List Row)) : Prop where
  nodup : (found.map Prod.fst).Nodup
  isSome_iff : ∀ name, (found.lookup name).isSome ↔
    ∃ key, (name, key) ∈ asked ∧ ((T.collection name).get? key).isSome
  mem_iff : ∀ name rows, found.lookup name = some rows → ∀ row,
    row ∈ rows ↔ ∃ key, (name, key) ∈ asked ∧ (T.collection name).get? key = some row
  ordered : ∀ name rows, found.lookup name = some rows →
    rows.Pairwise fun a b => a.address < b.address

theorem answers_holdings (T : Table) (r : BatchRequest) :
    Answers T r.wanted.toFinset (holdings T r) := by
  have hmem (name : String) (row : Row) : row ∈ (r.keys name).filterMap (T.collection name).get? ↔
      ∃ key, (name, key) ∈ r.wanted.toFinset ∧ (T.collection name).get? key = some row := by
    simp only [List.mem_filterMap, BatchRequest.mem_keys, List.mem_toFinset]
  constructor
  · have hnames : ((holdings T r).map Prod.fst).Sublist r.collections := by
      have hsub := (List.filter_sublist (p := fun entry => decide (entry.2 ≠ []))
        (l := r.collections.map fun name =>
          (name, (r.keys name).filterMap (T.collection name).get?))).map Prod.fst
      rwa [List.map_map, Function.comp_def, List.map_id'] at hsub
    exact r.nodup_collections.sublist hnames
  · intro name
    rw [Option.isSome_iff_exists]
    simp only [lookup_holdings, Option.isSome_iff_exists]
    constructor
    · rintro ⟨rows, hne, rfl⟩
      obtain ⟨row, hrow⟩ := List.exists_mem_of_ne_nil _ hne
      obtain ⟨key, hkey, hget⟩ := (hmem name row).1 hrow
      exact ⟨key, hkey, row, hget⟩
    · rintro ⟨key, hkey, row, hget⟩
      exact ⟨_, List.ne_nil_of_mem ((hmem name row).2 ⟨key, hkey, hget⟩), rfl⟩
  · intro name rows hrows row
    obtain ⟨-, rfl⟩ := lookup_holdings.1 hrows
    exact hmem name row
  · intro name rows hrows
    obtain ⟨-, rfl⟩ := lookup_holdings.1 hrows
    exact pairwise_holding T r name

/-- However a request was put together, reading it is making calls of one collection each, none of
them empty or too large, as many as these limits ask for. It is never refused, and it answers with
what the table has of the keys asked for. -/
theorem read_asked (hmax : 0 < T.maxBatchSize) (size : Nat) (asks : List BatchRequest.Ask) :
    let r := BatchRequest.ofAsks asks
    let asked := BatchRequest.asked asks
    let limit := min (max size 1) T.maxBatchSize
    let made := calls limit r r.collections
    read size r T = ((serve made T).1.map (gather r.collections), (serve made T).2) ∧
    (∀ call ∈ made, 1 ≤ call.keys.length ∧ call.keys.length ≤ limit ∧
      ∀ key ∈ call.keys, (call.collection, key) ∈ asked) ∧
    made.length = ∑ name ∈ asked.image Prod.fst, (asked.filter (·.1 = name)).card ⌈/⌉ limit ∧
    ∃ found, Answers T asked found ∧
      read size r T = (.ok found, { T with batchCalls := T.batchCalls + made.length }) := by
  intro r asked limit made
  have hlimit : chunkSize size T = limit := chunkSize_eq hmax size
  have hpos : 0 < limit := hlimit ▸ chunkSize_pos size T
  have hasked : r.wanted.toFinset = asked := BatchRequest.toFinset_wanted_ofAsks asks
  refine ⟨?_, fun call hcall => ?_, ?_, holdings T r, ?_, ?_⟩
  · rw [read_eq_serve, hlimit]
  · obtain ⟨hne, hle⟩ := length_keys_of_mem_calls hpos hcall
    refine ⟨hne, hle, fun key hkey => ?_⟩
    exact BatchRequest.mem_wanted_ofAsks.1 (wanted_of_mem_calls hcall hkey)
  · rw [length_calls hpos, hasked]
  · exact hasked ▸ answers_holdings T r
  · rw [read_eq hmax, hlimit]

def slot (name : String) : Address := ⟨"shelf", name⟩

def folderAt (name : String) : Row where
  key := { primary := slot name }
  record := .folderNode { kind := .folder, name, path := name, parentKey := "shelf" }

def shelves : Table :=
  [("papers", "p"), ("papers", "r"), ("books", "q")].foldl
    (fun T held => T.seed held.1 (folderAt held.2)) { name := "papers", maxBatchSize := 2 }

def mixedAsks : List BatchRequest.Ask :=
  [.several "papers" [slot "r", slot "q", slot "p"], .one "books" (slot "q"),
    .one "papers" (slot "r"), .one "attic" (slot "p"), .several "cellar" []]

theorem shelves_read_asked :
    0 < shelves.maxBatchSize ∧
      calls 2 (.ofAsks mixedAsks) (BatchRequest.ofAsks mixedAsks).collections =
        [⟨"attic", [slot "p"]⟩, ⟨"books", [slot "q"]⟩, ⟨"papers", [slot "p", slot "q"]⟩,
          ⟨"papers", [slot "r"]⟩] ∧
      ∃ found, Answers shelves (BatchRequest.asked mixedAsks) found ∧
        found = [("books", [folderAt "q"]), ("papers", [folderAt "p", folderAt "r"])] ∧
        read 100 (.ofAsks mixedAsks) shelves = (.ok found, { shelves with batchCalls := 4 }) := by
  have hmax : 0 < shelves.maxBatchSize := by decide +kernel
  obtain ⟨-, -, -, found, hanswers, hread⟩ := read_asked hmax 100 mixedAsks
  have hvalue : read 100 (.ofAsks mixedAsks) shelves =
      (.ok [("books", [folderAt "q"]), ("papers", [folderAt "p", folderAt "r"])],
        { shelves with batchCalls := 4 }) := by decide +kernel
  have hfound : found = [("books", [folderAt "q"]), ("papers", [folderAt "p", folderAt "r"])] :=
    Except.ok.inj (congrArg Prod.fst (hread.symm.trans hvalue))
  exact ⟨hmax, by decide +kernel, found, hanswers, hfound, hfound ▸ hvalue⟩

end Batch

end Cabinet