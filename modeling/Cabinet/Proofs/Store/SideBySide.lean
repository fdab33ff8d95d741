import Cabinet.Proofs.Store.Isolation
import Cabinet.Proofs.Store.Soundness

/-! A table that several tenants use. Main statement: after any requests of tenants without common
partitions none of them can tell it from a sound table. -/

namespace Cabinet

namespace Table

variable {t : Tenant} {T : Table}

/-- The tenant reads from the table what it would read from a sound one. -/
def SoundTo (t : Tenant) (T : Table) : Prop := ∃ T' : Table, T.Alike t T' ∧ T'.Sound t

namespace SoundTo

theorem keeps (h : T.SoundTo t) : T.Keeps t :=
  h.elim fun _ h => h.1.left

theorem owned (h : T.SoundTo t) {row : Row} (hrow : row ∈ T) (hlive : row.IsLive t) {id : String}
    (hp : row.address.partition = Partition.document t id) : (T.document? t id).isSome := by
  obtain ⟨T', halike, hsound⟩ := h
  rw [halike.document?]
  exact hsound.owned row ((halike.rows row (.inl hlive)).1 hrow) id hp

theorem isSome_document?_of_value (h : T.SoundTo t) {a : Attribute} (ha : a.row t ∈ T) :
    (T.document? t a.documentId).isSome :=
  h.owned ha (.value a) rfl

end SoundTo

end Table

namespace Store

variable {tenants : Tenant → Prop} {t : Tenant} {c : Config} {requests : List Request}

theorem soundTo_fresh (name : String) (maxBatchSize : Nat) (clock : Clock) (t : Tenant) :
    (fresh name maxBatchSize clock).table.SoundTo t :=
  ⟨_, (alike_fresh name maxBatchSize clock t).table, sound_fresh t name maxBatchSize clock⟩

/-- A request of the tenant is made to both tables, and that of another one to its own. -/
theorem soundTo_run (hapart : ∀ t u, tenants t → tenants u → u ≠ t → u.Apart t)
    (hrequests : ∀ r ∈ requests, tenants r.tenant) (ht : tenants t) {s : Store}
    (hfiled : s.table.FiledBy tenants) (h : s.table.SoundTo t) :
    (run c s requests).2.table.SoundTo t := by
  have hboth : (run c s requests).2.table.FiledBy tenants ∧
      (run c s requests).2.table.SoundTo t := by
    refine run_induction (I := fun T => T.FiledBy tenants ∧ T.SoundTo t) (fun r hr T n hT => ?_)
      ⟨hfiled, h⟩
    obtain ⟨hfiled, T', halike, hsound⟩ := hT
    have hown := hrequests r hr
    have hkeeps : T.Keeps r.tenant := hfiled.keeps fun u hu => hapart r.tenant u hown hu
    have hedits := (Operation.edits_effect hkeeps c r.operation).counted n
    refine ⟨hfiled.of_edits hown hedits, ?_⟩
    by_cases hmine : r.tenant = t
    · rw [hmine]
      exact ⟨_, (halike.effect c r.operation).counted n n,
        (Operation.sound_effect hsound c r.operation).counted n⟩
    · exact ⟨T', alike_of_edits halike (hapart t r.tenant ht hown hmine) hedits, hsound⟩
  exact hboth.2

end Store

end Cabinet
