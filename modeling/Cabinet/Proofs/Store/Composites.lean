import Cabinet.Proofs.Store.Isolation
import Cabinet.Proofs.Store.Joining

/-! Composite attributes beside the attributes they are made of. Main statement: along a run the
values of a composite attribute are those of its components, joined in every combination, exactly as
long as none is deleted by its own name and each restore puts values together that fit. -/

namespace Cabinet

namespace Operation

open Attribute

variable {t : Tenant} {T : Table} {c : Config} {group : List String} {m : String} {op : Operation}

/-- What a request must find for the composite values to stay those of the components: a deletion
by the name of the group, no value to delete; a restore, documents whose values fit, the live and the
soft-deleted ones put together. -/
def KeepsComposites (t : Tenant) (group : List String) (T : Table) : Operation → Prop
  | deleteAttribute id key => key = compositeName group → T.indexTexts t id key = []
  | restoreDocument id => T.document? t id = none → ∀ m ∈ T.deletedFamily t id,
    Mirrors group fun key => T.indexTexts t m key ++ T.deletedTexts t m key
  | _ => True

theorem mirrors_of_valueStep {T' : Table} (hgroup : group ≠ [])
    (hstep : Table.ValueStep t group T T' m op) (hkeeps : op.KeepsComposites t group T)
    (hm : Mirrors group (T.indexTexts t m)) : Mirrors group (T'.indexTexts t m) := by
  cases hstep with
  | same live => exact (mirrors_congr live).2 hm
  | rebuilt live => exact live
  | unnamed live none =>
    refine (mirrors_congr (List.forall_mem_cons.2 ⟨fun v => ?_, live⟩)).2 hm
    rw [none, hkeeps rfl]
  | removed live => exact mirrors_of_forall_nil hgroup live
  | restored hroot hmember live =>
    refine (mirrors_congr fun key _ v => ?_).2 (hkeeps hroot m hmember)
    rw [live, List.mem_append]

/-- Only a deletion by name and a restore can part composite values from their components. -/
theorem keepsComposites_of_mirrors (h : T.Legible t) (hapart : c.IsApart group)
    (hgroup : group ∈ c.compositeKeys) (hm : ∀ m, Mirrors group (T.indexTexts t m))
    (hm' : ∀ m, Mirrors group ((op.effect c t T).indexTexts t m)) :
    op.KeepsComposites t group T := by
  cases op with
  | deleteAttribute id key =>
    rintro rfl
    obtain ⟨hkeys, hnone⟩ := Table.attributeDeleted_name h hapart hgroup id
    refine List.eq_nil_iff_forall_not_mem.2 fun v hv => ?_
    -- the components still have the values that are joined in it
    rw [hm id, ← joined_congr hkeys] at hv
    have hback := (hm' id v).2 hv
    rw [effect, hnone] at hback
    cases hback
  | restoreDocument id =>
    intro hroot m hmember
    refine (mirrors_congr fun key _ v => ?_).1 (hm' m)
    rw [mem_indexTexts_restoreDocument h hroot, and_iff_right hmember, List.mem_append]
  | _ => trivial

theorem mirrors_effect_iff (h : T.Legible t) (hc : c.Valid) (hapart : c.IsApart group)
    (hgroup : group ∈ c.compositeKeys) (hplain : op.SetsPlain)
    (hm : ∀ m, Mirrors group (T.indexTexts t m)) :
    (∀ m, Mirrors group ((op.effect c t T).indexTexts t m)) ↔ op.KeepsComposites t group T := by
  have hne := Config.ne_nil_of_mem hc hgroup
  exact ⟨keepsComposites_of_mirrors h hapart hgroup hm, fun hkeeps m =>
    mirrors_of_valueStep hne (valueStep_effect h hc hapart hgroup op hplain m) hkeeps (hm m)⟩

end Operation

namespace Store

open Attribute

variable {tenants : Tenant → Prop} {t : Tenant} {c : Config} {requests : List Request}
  {group : List String}

theorem mirrors_fresh (t : Tenant) (id : String) (hgroup : group ≠ []) (name : String)
    (maxBatchSize : Nat) (clock : Clock) :
    Mirrors group ((fresh name maxBatchSize clock).table.indexTexts t id) :=
  mirrors_of_forall_nil hgroup
    (Table.indexTexts_eq_nil (not_mem_fresh name maxBatchSize clock) t id)

/-- Along the requests of tenants side by side, which set attributes with plain keys: the values under
the name of a group are those of its keys, joined in every combination, for every document of a
tenant, exactly as long as each request of the tenant keeps the composite values. -/
theorem composites_mirror_iff {c : Config} (hc : c.Valid) (hgroup : group ∈ c.compositeKeys)
    (hown : c.IsApart group) (name : String) (maxBatchSize : Nat) (clock : Clock)
    (hapart : ∀ t u, tenants t → tenants u → u ≠ t → u.Apart t) (ht : tenants t)
    (hrequests : ∀ r ∈ requests, tenants r.tenant ∧ r.operation.SetsPlain) :
    (∀ n id, Mirrors group
      ((run c (fresh name maxBatchSize clock) (requests.take n)).2.table.indexTexts t id)) ↔
      ∀ n, (hn : n < requests.length) → requests[n].tenant = t →
        requests[n].operation.KeepsComposites t group
          (run c (fresh name maxBatchSize clock) (requests.take n)).2.table := by
  refine run_take_iff (I := fun T => ∀ id, Mirrors group (T.indexTexts t id))
    (Q := fun r T => r.tenant = t → r.operation.KeepsComposites t group T)
    (fun id => ?_) fun n hn hm => ?_
  · exact mirrors_fresh t id (Config.ne_nil_of_mem hc hgroup) name maxBatchSize clock
  have hlegible {u : Tenant} (hu : tenants u) :
      (run c (fresh name maxBatchSize clock) (requests.take n)).2.table.Legible u :=
    legible_run hapart c name maxBatchSize clock
      (fun r hr => hrequests r (List.mem_of_mem_take hr)) hu
  obtain ⟨hr, hplain⟩ := hrequests _ (List.getElem_mem hn)
  obtain ⟨calls, hcalls⟩ := table_step c
    (run c (fresh name maxBatchSize clock) (requests.take n)).2 requests[n]
  rw [run_take_succ hn, hcalls]
  by_cases hmine : requests[n].tenant = t
  · rw [hmine, imp_iff_right rfl]
    exact Operation.mirrors_effect_iff (hlegible ht) hc hown hgroup hplain hm
  · -- another tenant changes no values
    have hedits := Operation.edits_effect (hlegible hr).keeps c requests[n].operation
    refine iff_of_true (fun id => ?_) fun hself => absurd hself hmine
    refine (mirrors_congr fun key _ v => ?_).2 (hm id)
    exact (hedits.sameValues_of_apart (hapart t _ ht hr hmine) (hlegible ht).keeps).live key v

def valued (key value : String) : Attribute := ⟨"p", key, .text value, "u", ⟨1704067200, 0⟩⟩

def redescribed : List Request :=
  let document : Document :=
    { id := "p", userId := "u", inserted := ⟨1704067200, 0⟩, modified := ⟨1704067200, 0⟩ }
  let north (op : Operation) : Request := ⟨.site "north", ⟨0⟩, op⟩
  let south (op : Operation) : Request := ⟨.site "south", ⟨0⟩, op⟩
  [north (.saveDocument document),
    north (.setAttributes "p" [valued "category" "memo", valued "year" "2024"]),
    south (.saveDocument document),
    north (.deleteDocument "p" true),
    south (.deleteAttribute "p" "category::year"),
    north (.restoreDocument "p"),
    north (.deleteAttribute "p" "year")]

theorem composites_mirror_redescribed : dated.Valid ∧ dated.IsApart ["category", "year"] ∧
    (∀ r ∈ redescribed, (r.tenant = .site "north" ∨ r.tenant = .site "south") ∧
      r.operation.SetsPlain) ∧
    ∀ n id, Mirrors ["category", "year"]
      ((run dated (fresh "documents" 100 ⟨0⟩) (redescribed.take n)).2.table.indexTexts
        (.site "north") id) := by
  have hvalid : dated.Valid := by decide
  have hown : dated.IsApart ["category", "year"] := ⟨by decide, by decide⟩
  have hrequests : ∀ r ∈ redescribed, (r.tenant = .site "north" ∨ r.tenant = .site "south") ∧
      r.operation.SetsPlain := by
    simp [redescribed, Operation.SetsPlain, IsPlain, valued]
  refine ⟨hvalid, hown, hrequests, (composites_mirror_iff hvalid (by decide) hown "documents" 100
    ⟨0⟩ (Tenant.apart_of_sites (by decide) (by decide) (by decide)) (.inl rfl) hrequests).2 ?_⟩
  intro n hn hmine
  match n with
  | 0 | 1 | 2 | 3 => trivial
  | 4 => exact absurd (show Tenant.site "south" = .site "north" from hmine) (by decide)
  | 5 =>
    intro _
    show ∀ m ∈ _, _
    decide +kernel
  | 6 => exact fun hname => absurd hname (by decide)

def deletedByName : List Request :=
  let document : Document :=
    { id := "p", userId := "u", inserted := ⟨1704067200, 0⟩, modified := ⟨1704067200, 0⟩ }
  let request (op : Operation) : Request := ⟨.default, ⟨0⟩, op⟩
  [request (.saveDocument document),
    request (.setAttributes "p" [valued "category" "memo", valued "year" "2024"]),
    request (.deleteAttribute "p" "category::year")]

theorem composites_lost_by_name :
    let T := (run dated (fresh "documents" 100 ⟨0⟩) deletedByName).2.table
    (T.document? .default "p").isSome ∧ T.indexTexts .default "p" "category" = ["memo"] ∧
      T.indexTexts .default "p" "year" = ["2024"] ∧
      T.indexTexts .default "p" "category::year" = [] ∧
      ¬Mirrors ["category", "year"] (T.indexTexts .default "p") := by
  decide +kernel

end Store

end Cabinet
