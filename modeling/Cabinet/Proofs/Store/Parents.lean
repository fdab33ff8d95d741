import Cabinet.Proofs.Store.Leaves

/-! Documents that belong to others. Main statement: along the requests of one tenant the parent of
each live document is live, exactly as long as each restore brings back a document whose parent is
live, or comes back with it. -/

namespace Cabinet

open Relation (ReflTransGen)

namespace Table

variable {t : Tenant} {T T' : Table} {id m p : String} {d e : Document}

/-- The parents of live documents are live. -/
def Parented (t : Tenant) (T : Table) : Prop :=
  ∀ m d, T.document? t m = some d → ∀ p ∈ d.parent, (T.document? t p).isSome

theorem Parented.congr (hT : T.Parented t) (h : ∀ m, T'.document? t m = T.document? t m) :
    T'.Parented t := by
  intro m d hd p hp
  rw [h] at hd ⊢
  exact hT m d hd p hp

theorem Parented.of_aside (hT : T.Parented t) (h : T.Keeps t) (he : T.Edits (Row.IsAside t) T') :
    T'.Parented t :=
  hT.congr (he.document?_of_aside h)

theorem isSome_document?_saved (h : T.Keeps t) (d : Document) (hlive : (T.document? t m).isSome) :
    ((T.saved t d).document? t m).isSome := by
  rw [document?_saved h]
  split
  · rfl
  · exact hlive

theorem Parented.saved (hT : T.Parented t) (h : T.Keeps t) (hfault : T.saveFault? t d = none) :
    (T.saved t d).Parented t := by
  intro m e he p hp
  apply isSome_document?_saved h
  rw [document?_saved h] at he
  split at he
  · -- the parent of the saved document has been looked for
    obtain rfl := Option.some.inj he
    rw [successor_parent] at hp
    exact (saveFault?_eq_none hfault hp).2
  · exact hT m e he p hp

theorem Parented.removed (hT : T.Parented t) (h : T.Keeps t) (id : String) (soft : Bool) :
    (T.remove t soft (T.family t id)).Parented t := by
  have hnodup := nodup_family t T id
  intro m e he p hp
  rw [document?_remove h hnodup] at he
  split at he
  · cases he
  rename_i hm
  have hparent : p ∉ T.family t id := by
    intro hmem
    rw [mem_family h] at hmem hm
    obtain ⟨hrow, ht, hid⟩ := (document?_eq_some_iff h).1 he
    exact hm (hmem.tail ⟨e, hrow, ht, hp, hid⟩)
  exact isSome_document?_remove h hnodup hparent (hT m e he p hp)

namespace Restores

variable {lives : List Row} (hr : T.Restores t id lives) (h : T.Sound t)
  (hne : T.restorable t id ≠ []) (documents : List Document)

include hr h hne

/-- The live documents after a restore are the ones brought back and the ones outside the family. -/
theorem document?_eq_some_iff :
    (T.broughtBack t lives documents).document? t m = some e ↔
      e ∈ T.restorableDocuments t id ∧ e.id = m ∨
        m ∉ T.deletedFamily t id ∧ T.document? t m = some e := by
  by_cases hm : m ∈ T.deletedFamily t id
  · obtain ⟨f, hf, hid⟩ := h.exists_restorable hne hm
    have hlive := hr.document?_of_restorable h.keeps hf documents
    rw [hid] at hlive
    simp only [hm, not_true_eq_false, false_and, or_false]
    constructor
    · intro he
      obtain rfl : f = e := Option.some.inj (hlive.symm.trans he)
      exact ⟨hf, hid⟩
    · rintro ⟨he, rfl⟩
      exact hr.document?_of_restorable h.keeps he documents
  · rw [hr.document?_of_not_mem h.keeps hm]
    simp only [hm, not_false_eq_true, true_and]
    refine (or_iff_right ?_).symm
    rintro ⟨he, rfl⟩
    exact hm ((mem_restorableDocuments h.keeps).1 he).2.2

theorem isSome_document?_iff :
    ((T.broughtBack t lives documents).document? t p).isSome ↔
      (T.document? t p).isSome ∨ p ∈ T.deletedFamily t id := by
  by_cases hp : p ∈ T.deletedFamily t id
  · obtain ⟨f, hf, rfl⟩ := h.exists_restorable hne hp
    rw [hr.document?_of_restorable h.keeps hf documents]
    simp [hp]
  · rw [hr.document?_of_not_mem h.keeps hp]
    simp [hp]

end Restores

theorem mem_restorableDocuments_of_deletedDocuments (h : T.Keeps t)
    (hd : d ∈ T.deletedDocuments t id) : d ∈ T.restorableDocuments t id :=
  List.mem_flatMap.2 ⟨id, (mem_deletedFamily h).2 .refl, hd⟩

theorem restorable_ne_nil (h : T.Keeps t) (he : e ∈ T.restorableDocuments t id) :
    T.restorable t id ≠ [] := by
  obtain ⟨hrow, ht, hm⟩ := (mem_restorableDocuments h).1 he
  refine List.ne_nil_of_mem ((mem_restorable_of_partition h hrow ?_).2 hm)
  rw [Row.address_marked, Document.address_liveRow ht]
  rfl

theorem Sound.parent_mem_deletedFamily (h : T.Sound t) {lives : List Row}
    (hr : T.Restores t id lives) (hne : T.restorable t id ≠ [])
    (he : e ∈ T.restorableDocuments t id) (hid : e.id ≠ id) (hp : p ∈ e.parent) :
    p ∈ T.deletedFamily t id := by
  obtain ⟨hrow, ht, hm⟩ := (mem_restorableDocuments h.keeps).1 he
  rcases ((mem_deletedFamily_iff h.keeps hne).1 hm).cases_tail with
    hroot | ⟨a, ha, f, hf, hft, hfa, hfid⟩
  · exact absurd hroot hid
  · -- a document has one soft-deleted record, so the child that was followed is `e`
    have hfm : f ∈ T.restorableDocuments t id :=
      (mem_restorableDocuments h.keeps).2 ⟨hf, hft, hfid ▸ hm⟩
    have hlive := hr.document?_of_restorable h.keeps hfm []
    rw [hfid, hr.document?_of_restorable h.keeps he] at hlive
    obtain rfl : e = f := Option.some.inj hlive
    obtain rfl : p = a := Option.some.inj (hp.symm.trans hfa)
    exact (mem_deletedFamily_iff h.keeps hne).2 ha

/-- The parent of a soft-deleted document is live, or among those that come back with it. -/
def FindsParent (t : Tenant) (T : Table) (id : String) : Prop :=
  ∀ d ∈ T.deletedDocuments t id, ∀ p ∈ d.parent,
    (T.document? t p).isSome ∨ p ∈ T.deletedFamily t id

instance (t : Tenant) (T : Table) (id : String) : Decidable (T.FindsParent t id) :=
  inferInstanceAs (Decidable (∀ d ∈ T.deletedDocuments t id, ∀ p ∈ d.parent,
    (T.document? t p).isSome ∨ p ∈ T.deletedFamily t id))

theorem Parented.restored_iff (hT : T.Parented t) (h : T.Sound t) {lives : List Row}
    (hr : T.Restores t id lives) (hne : T.restorable t id ≠ []) (documents : List Document) :
    (T.broughtBack t lives documents).Parented t ↔ T.FindsParent t id := by
  constructor
  · intro hafter d hd p hp
    have hback := mem_restorableDocuments_of_deletedDocuments h.keeps hd
    rw [← hr.isSome_document?_iff h hne documents]
    exact hafter d.id d (hr.document?_of_restorable h.keeps hback documents) p hp
  · intro hfound m e he p hp
    rw [hr.isSome_document?_iff h hne]
    rcases (hr.document?_eq_some_iff h hne documents).1 he with ⟨hback, rfl⟩ | ⟨-, hlive⟩
    · by_cases hid : e.id = id
      · obtain ⟨hrow, ht, -⟩ := (mem_restorableDocuments h.keeps).1 hback
        exact hfound e ((mem_deletedDocuments h.keeps).2 ⟨hrow, ht, hid⟩) p hp
      · exact .inr (h.parent_mem_deletedFamily hr hne hback hid hp)
    · exact .inl (hT m e hlive p hp)

end Table

namespace Operation

variable {t : Tenant} {T T' : Table} {op : Operation}

/-- Only a restore can bring back a document without its parent. -/
def KeepsParents (t : Tenant) (T : Table) : Operation → Prop
  | restoreDocument id => T.document? t id = none → T.FindsParent t id
  | _ => True

theorem effect_restoreDocument (h : T.Keeps t) (c : Config) {id : String}
    (hroot : T.document? t id = none) (hne : T.restorable t id ≠ []) :
    ∃ lives, T.Restores t id lives ∧ (restoreDocument id).effect c t T =
      T.broughtBack t lives (T.restorableDocuments t id) := by
  obtain ⟨lives, hr, hmoves⟩ := Table.exists_restores h id
  refine ⟨lives, hr, ?_⟩
  have hlive : ¬((T.document? t id).isSome ∨ T.restorable t id = []) := by
    rw [hroot]
    exact not_or.2 ⟨nofun, hne⟩
  simp only [effect, hmoves, if_neg hlive]
  rfl

theorem Outcome.parented (ho : Outcome t T op T') (h : T.Sound t) (hkeeps : op.KeepsParents t T)
    (hT : T.Parented t) : T'.Parented t := by
  cases ho with
  | same => exact hT
  | saved hfault => exact hT.saved h.keeps hfault
  | removed => exact hT.removed h.keeps _ _
  | restored hroot hne hr => exact (hT.restored_iff h hr hne _).2 (hkeeps hroot)
  | metadata _ _ he => exact hT.of_aside h.keeps (he.mono fun _ hrow => hrow.isAside)
  | emptied ha =>
    exact hT.of_aside h.keeps ((Table.edits_emptyFolder h.keeps ha).mono fun _ hrow => hrow.isAside)

theorem keepsParents_of_parented (h : T.Sound t) (hT : T.Parented t) {c : Config}
    (hT' : (op.effect c t T).Parented t) : op.KeepsParents t T := by
  cases op with
  | restoreDocument id =>
    intro hroot d hd
    have hne := Table.restorable_ne_nil h.keeps
      (Table.mem_restorableDocuments_of_deletedDocuments h.keeps hd)
    obtain ⟨lives, hr, heffect⟩ := effect_restoreDocument h.keeps c hroot hne
    rw [heffect, hT.restored_iff h hr hne] at hT'
    exact hT' d hd
  | _ => trivial

theorem parented_effect_iff (h : T.Sound t) (hT : T.Parented t) (c : Config) (op : Operation) :
    (op.effect c t T).Parented t ↔ op.KeepsParents t T :=
  ⟨keepsParents_of_parented h hT, fun hkeeps => (outcome_effect h c op).parented h hkeeps hT⟩

end Operation

namespace Store

variable {t : Tenant}

/-- Along the requests of one tenant the parents of live documents are live, exactly as long as each
restore finds the parent of its document, live or among the documents that come back. -/
theorem parents_are_live_iff (c : Config) (name : String) (maxBatchSize : Nat) (clock : Clock)
    {requests : List Request} (hrequests : ∀ r ∈ requests, r.tenant = t) :
    (∀ n, (run c (fresh name maxBatchSize clock) (requests.take n)).2.table.Parented t) ↔
      ∀ n, (hn : n < requests.length) → requests[n].operation.KeepsParents t
        (run c (fresh name maxBatchSize clock) (requests.take n)).2.table := by
  refine run_take_iff (I := fun T => T.Parented t) (Q := fun r T => r.operation.KeepsParents t T)
    (fun m d hd => nomatch hd) fun n hn hT => ?_
  have hsound : (run c (fresh name maxBatchSize clock) (requests.take n)).2.table.Sound t :=
    sound_run (fun r hr => hrequests r (List.mem_of_mem_take hr))
      (sound_fresh t name maxBatchSize clock)
  obtain ⟨calls, hcalls⟩ := table_step c
    (run c (fresh name maxBatchSize clock) (requests.take n)).2 requests[n]
  rw [run_take_succ hn, hcalls, hrequests _ (List.getElem_mem hn)]
  exact Operation.parented_effect_iff hsound hT c requests[n].operation

def eachOther : List Request :=
  let request (op : Operation) : Request := ⟨.default, ⟨0⟩, op⟩
  [request (.saveDocument parentSaved), request (.saveDocument childSaved),
    request (.deleteDocument "c" true), request (.restoreDocument "c"),
    request (.saveDocument { parentSaved with parent := some "c" }),
    request (.deleteDocument "p" true), request (.restoreDocument "p")]

theorem parents_are_live_eachOther : (∀ r ∈ eachOther, r.tenant = .default) ∧
    ∀ n, (run {} (fresh "documents" 100 ⟨0⟩) (eachOther.take n)).2.table.Parented .default := by
  have hrequests : ∀ r ∈ eachOther, r.tenant = .default := by decide
  refine ⟨hrequests, (parents_are_live_iff {} "documents" 100 ⟨0⟩ hrequests).2 fun n hn => ?_⟩
  match n with
  | 0 | 1 | 2 | 4 | 5 => trivial
  | 3 | 6 =>
    intro _
    show Table.FindsParent _ _ _
    decide +kernel

def childRestored : List Request :=
  let request (op : Operation) : Request := ⟨.default, ⟨0⟩, op⟩
  [request (.saveDocument parentSaved), request (.saveDocument childSaved),
    request (.deleteDocument "p" true), request (.restoreDocument "c")]

theorem restored_child_lacks_parent :
    let T := (run {} (fresh "documents" 100 ⟨0⟩) childRestored).2.table
    ¬T.Parented .default ∧ T.document? .default "c" = some childSaved ∧
      T.document? .default "p" = none := by
  intro T
  have hchild : T.document? .default "c" = some childSaved := by decide +kernel
  have hparent : T.document? .default "p" = none := by decide +kernel
  refine ⟨fun hT => ?_, hchild, hparent⟩
  have hlive := hT "c" childSaved hchild "p" rfl
  rw [hparent] at hlive
  cases hlive

end Store

end Cabinet
