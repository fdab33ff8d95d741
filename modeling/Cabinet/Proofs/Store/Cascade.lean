import Cabinet.Proofs.Store.Soundness

/-! What a deletion takes along. Main statement: the documents below a live one are walked to the
end, also where parents go in circles; nothing is left in their partitions, and every other row that
was live stays. -/

namespace Cabinet

open Relation

namespace Table

/-- A row in the partition of a document that goes with `id`, or a leaf of one. -/
def GoesWith (t : Tenant) (T : Table) (id : String) (row : Row) : Prop :=
  ∃ m, ReflTransGen (T.IsChild t) id m ∧
    (row.address.partition = Partition.document t m ∨ row.isLeaf ∧ row.documentId? = some m)

variable {t : Tenant} {T : Table} {row : Row} {id m : String}

theorem visited_family (h : T.Keeps t) (id : String) :
    Visited (fun m => (T.children t m).map Document.id) [id] [id] (T.family t id) := by
  have henough := pending_add_card_le T.card_owners_le id
  exact visited_reachable (childIds_subset h) henough

theorem goesWith_of_mem_rows (h : T.Keeps t)
    (hrow : row ∈ (T.family t id).flatMap (T.liveRows t)) : T.GoesWith t id row := by
  obtain ⟨m, hm, hrow⟩ := List.mem_flatMap.1 hrow
  have hreached := (mem_family h).1 hm
  obtain ⟨-, hlive, hid⟩ := mem_liveRows h hrow
  refine ⟨m, hreached, (hlive.of_documentId? hid).imp_right ?_⟩
  rintro ⟨parents, name, -, rfl⟩
  exact ⟨rfl, rfl⟩

theorem partition_ne_of_mem_remove (h : T.Keeps t) {soft : Bool}
    (hrow : row ∈ T.remove t soft (T.family t id)) (hm : ReflTransGen (T.IsChild t) id m) :
    row.address.partition ≠ Partition.document t m := by
  intro hp
  have hnodup := nodup_family t T id
  have hkeeps : (T.remove t soft (T.family t id)).Keeps t :=
    h.of_edits (fun _ hrow => hrow) (edits_remove h soft hnodup)
  have hlive : row.IsLive t := hkeeps.isLive_of_document hrow hp
  obtain ⟨hmem, hnot⟩ := (mem_remove_iff h hnodup hlive).1 hrow
  exact hnot ((mem_flatMap_liveRows h hmem hp).2 ((mem_family h).2 hm))

theorem Sound.mem_remove_of_not_goesWith (h : T.Sound t) {soft : Bool}
    (hunmarked : SoftDelete.isMarked t row.address.partition = false) (hnot : ¬T.GoesWith t id row) :
    row ∈ T.remove t soft (T.family t id) ↔ row ∈ T := by
  have hremoved : (T.remove t soft (T.family t id)).Sound t := h.remove id soft
  have hnodup := nodup_family t T id
  constructor
  · intro hmem
    have hlive : row.IsLive t := (hremoved.isMarked_eq_false_iff hmem).1 hunmarked
    exact ((mem_remove_iff h.keeps hnodup hlive).1 hmem).1
  · intro hmem
    have hlive : row.IsLive t := (h.isMarked_eq_false_iff hmem).1 hunmarked
    refine (mem_remove_iff h.keeps hnodup hlive).2 ⟨hmem, fun hrow => hnot ?_⟩
    exact goesWith_of_mem_rows h.keeps hrow

end Table

namespace Store

/-- In every store that requests of one tenant lead to, a deletion comes to its end and answers
whether the document is live. If it is not, nothing changes; if it is, the partitions of the document
and of all live documents below it are empty afterwards, and every other live row is as it was. -/
theorem deleteDocument_takes_family (c : Config) (name : String) (maxBatchSize : Nat)
    (clock : Clock) {t : Tenant} {requests : List Request}
    (hrequests : ∀ r ∈ requests, r.tenant = t) (id : String) (soft : Bool) :
    let s := (run c (fresh name maxBatchSize clock) requests).2
    let deleted := (deleteDocument t id soft).run s
    Visited (fun m => (s.table.children t m).map Document.id) [id] [id] (s.table.family t id) ∧
      deleted.1 = .ok (s.table.document? t id).isSome ∧
      ((s.table.document? t id).isNone → deleted.2 = s) ∧
      ((s.table.document? t id).isSome →
        (∀ m, ReflTransGen (s.table.IsChild t) id m → (s.table.document? t m).isSome ∧
          ∀ row ∈ deleted.2.table, row.address.partition ≠ Partition.document t m) ∧
        ∀ row, SoftDelete.isMarked t row.address.partition = false →
          ¬s.table.GoesWith t id row → (row ∈ deleted.2.table ↔ row ∈ s.table)) := by
  intro s deleted
  have hsound : s.table.Sound t := sound_run hrequests (sound_fresh t name maxBatchSize clock)
  have hkeeps := hsound.keeps
  have hrun : deleted = _ := run_deleteDocument t id soft s
  refine ⟨Table.visited_family hkeeps id, ?_⟩
  cases hlive : s.table.document? t id with
  | none =>
    rw [hlive] at hrun
    rw [hrun]
    exact ⟨rfl, fun _ => rfl, nofun⟩
  | some d =>
    rw [hlive] at hrun
    rw [hrun]
    refine ⟨rfl, nofun, fun _ => ⟨fun m hm => ⟨?_, fun row hrow => ?_⟩, fun row hunmarked hnot => ?_⟩⟩
    · have hroot : (s.table.document? t id).isSome := Option.isSome_of_eq_some hlive
      exact Table.isSome_document?_of_mem_family hkeeps hroot ((Table.mem_family hkeeps).2 hm)
    · exact Table.partition_ne_of_mem_remove hkeeps hrow hm
    · exact hsound.mem_remove_of_not_goesWith hunmarked hnot

def circle : List Request :=
  let document (id path : String) : Document :=
    { id, path := some path, userId := "u", inserted := ⟨1704067200, 0⟩,
      modified := ⟨1704067200, 0⟩ }
  let request (op : Operation) : Request := ⟨.site "acme", ⟨0⟩, op⟩
  [request (.saveDocument (document "p" "a/p.txt")),
    request (.saveDocument { document "c" "a/c.txt" with parent := some "p" }),
    request (.saveDocument { document "p" "a/p.txt" with parent := some "c" }),
    request (.saveDocument (document "q" "a/q.txt"))]

theorem deleteDocument_takes_circle : (∀ r ∈ circle, r.tenant = .site "acme") ∧
    let s := (run {} (fresh "documents" 100 ⟨0⟩) circle).2
    let deleted := (deleteDocument (.site "acme") "p" false).run s
    s.table.IsChild (.site "acme") "p" "c" ∧ s.table.IsChild (.site "acme") "c" "p" ∧
      deleted.1 = .ok true ∧
      (∀ row ∈ deleted.2.table, row.address.partition ≠ Partition.document (.site "acme") "c") ∧
      ∀ row, SoftDelete.isMarked (.site "acme") row.address.partition = false →
        ¬s.table.GoesWith (.site "acme") "p" row → (row ∈ deleted.2.table ↔ row ∈ s.table) := by
  have hrequests : ∀ r ∈ circle, r.tenant = .site "acme" := by decide
  have hsound : (run {} (fresh "documents" 100 ⟨0⟩) circle).2.table.Sound (.site "acme") :=
    sound_run hrequests (sound_fresh (.site "acme") "documents" 100 ⟨0⟩)
  have hdown : (run {} (fresh "documents" 100 ⟨0⟩) circle).2.table.IsChild (.site "acme") "p" "c" :=
    (Table.mem_childIds hsound.keeps "p" "c").1 (by decide +kernel)
  have hup : (run {} (fresh "documents" 100 ⟨0⟩) circle).2.table.IsChild (.site "acme") "c" "p" :=
    (Table.mem_childIds hsound.keeps "c" "p").1 (by decide +kernel)
  have hlive : ((run {} (fresh "documents" 100 ⟨0⟩) circle).2.table.document?
      (.site "acme") "p").isSome := by decide +kernel
  obtain ⟨-, hanswer, -, htakes⟩ :=
    deleteDocument_takes_family {} "documents" 100 ⟨0⟩ hrequests "p" false
  obtain ⟨hgone, hkept⟩ := htakes hlive
  rw [hlive] at hanswer
  exact ⟨hrequests, hdown, hup, hanswer, (hgone "c" (.single hdown)).2, hkept⟩

end Store

end Cabinet
