import Cabinet.Proofs.Store.Provenance

/-! Which live rows a restore writes over. Main statement: none, unless a document that comes back is
live already or its leaf comes back where another leaf is. -/

namespace Cabinet

open Relation

namespace Table

variable {t : Tenant} {T : Table} {row : Row} {lives : List Row} {id m : String}

/-- The rows that a restore writes, in order. -/
def writtenBack (T : Table) (t : Tenant) (id : String) : List Row :=
  let back := match unmarkedMoves t (T.restorable t id) with
    | .ok moves => moves.map Prod.snd
    | .error _ => []
  back ++ pathRows t (T.restorableDocuments t id)

namespace Restores

theorem snd_backMoves (lives : List Row) : (backMoves t lives).map Prod.snd = lives := by
  unfold backMoves
  rw [List.map_map]
  exact List.map_id lives

/-- What is at a live address afterwards: what was written there last, or what was there. -/
theorem get?_after (hr : T.Restores t id lives) (documents : List Document) {a : Address}
    (ha : Partition.IsLive t a.partition) :
    (T.broughtBack t lives documents).get? a =
      (lastAt (lives ++ pathRows t documents) a).or (T.get? a) := by
  have horigin : ∀ m ∈ backMoves t lives, m.1 ≠ a := by
    intro m hm he
    obtain ⟨live, hl, rfl⟩ := List.mem_map.1 hm
    have hdeleted := (Row.IsDeleted.mark (hr.isLive live hl)).partition
    exact ha.ne_of_isDeleted hdeleted (congrArg Address.partition he).symm
  have hmove := get?_move (T := T) horigin
  rw [snd_backMoves] at hmove
  rw [broughtBack, indexPaths_eq, get?_putAll, hmove, lastAt_append, Option.or_assoc]

theorem mem_after_iff (hr : T.Restores t id lives) (documents : List Document) (hrow : row ∈ T)
    (hlive : row.IsLive t) :
    row ∈ T.broughtBack t lives documents ↔
      ∀ w ∈ lastAt (lives ++ pathRows t documents) row.address, w = row := by
  have hget := hr.get?_after documents hlive.partition
  rw [get?_address hrow] at hget
  have hmem : row ∈ T.broughtBack t lives documents ↔
      (T.broughtBack t lives documents).get? row.address = some row := by
    rw [get?_eq_some_iff]
    simp
  rw [hmem, hget]
  cases lastAt (lives ++ pathRows t documents) row.address <;> simp

theorem mem_family_of_written (hr : T.Restores t id lives) {documents : List Document}
    (hrow : row ∈ lives ++ pathRows t documents)
    (hp : row.address.partition = Partition.document t m) : m ∈ T.deletedFamily t id := by
  rcases List.mem_append.1 hrow with hl | hpath
  · obtain ⟨m', hm', hid⟩ := hr.family row hl
    have hm : row.documentId? = some m := ((hr.isLive row hl).documentId?_of_partition hp).1
    obtain rfl : m' = m := Option.some.inj (hid.symm.trans hm)
    exact hm'
  · exact absurd hp ((isNode_of_mem_pathRows hpath).partition_ne m)

theorem isLive_of_written (hr : T.Restores t id lives) {documents : List Document}
    (hrow : row ∈ lives ++ pathRows t documents) : row.IsLive t := by
  rcases List.mem_append.1 hrow with hl | hpath
  · exact hr.isLive row hl
  · exact (isNode_of_mem_pathRows hpath).1

/-- The record of a live document is lost when another one comes back. -/
theorem liveRow_lost (hr : T.Restores t id lives) (h : T.Keeps t) {documents : List Document}
    {d e : Document} (hd : d.tenant = t) (hid : d.id = e.id) (he : e.liveRow ∈ lives)
    (het : e.tenant = t) (hne : d ≠ e) :
    d.liveRow ∉ T.broughtBack t lives documents := by
  intro hafter
  have hedits := edits_indexPaths (T.move (backMoves t lives)) t documents
  have hmove : d.liveRow ∈ T.move (backMoves t lives) := by
    refine (hedits.kept d.liveRow fun r hr ha => ?_).1 hafter
    rw [Document.address_liveRow hd] at ha
    exact hr.partition_ne d.id (congrArg Address.partition ha)
  have hback : e.liveRow ∈ T.move (backMoves t lives) := (hr.mem_iff h).2 (.inl he)
  have haddress : d.liveRow.address = e.liveRow.address := by
    rw [Document.address_liveRow hd, hid, Document.address_liveRow het]
  exact hne (liveRow_injective (eq_of_address_eq hmove hback haddress))

end Restores

theorem Sound.mem_after (h : T.Sound t) (hr : T.Restores t id lives) {documents : List Document}
    (hfamily : ∀ m ∈ T.deletedFamily t id, T.document? t m = none)
    (hleaf : row.isLeaf → ∀ w ∈ lastAt (lives ++ pathRows t documents) row.address, w = row)
    (hrow : row ∈ T) (hlive : row.IsLive t) : row ∈ T.broughtBack t lives documents := by
  rw [hr.mem_after_iff documents hrow hlive]
  intro w hw
  obtain ⟨hwritten, ha⟩ := mem_of_lastAt hw
  -- a row of a document would be of the family, and a folder is the same whoever writes it
  rcases hlive.place with ⟨m, hp⟩ | ⟨parents, name, hnames, rfl⟩ | ⟨m, parents, name, -, rfl⟩
  · have hwp : w.address.partition = Partition.document t m := by
      rw [ha]
      exact hp
    have hnone := hfamily m (hr.mem_family_of_written hwritten hwp)
    have hsome := h.owned row hrow m hp
    rw [hnone] at hsome
    cases hsome
  · exact (hr.isLive_of_written hwritten).eq_folder hnames ha
  · exact hleaf rfl w hw

/-- When live rows stay, none of the family is live: along the way down from the document, the first
live one would have a record from before the deletion, with a live parent. -/
theorem Sound.document?_eq_none_of_kept (h : T.Sound t) (hr : T.Restores t id lives)
    (hroot : T.document? t id = none) (hne : T.restorable t id ≠ []) {documents : List Document}
    (hkept : ∀ row ∈ T, row.IsLive t → row ∈ T.broughtBack t lives documents)
    (hm : ReflTransGen (T.IsDeletedChild t) id m) : T.document? t m = none := by
  induction hm with
  | refl => exact hroot
  | @tail a b hpath hchild ih =>
    have hb : b ∈ T.deletedFamily t id :=
      (mem_deletedFamily_iff h.keeps hne).2 (hpath.tail hchild)
    obtain ⟨e, he, het, hparent, hid⟩ := hchild
    by_contra hsome
    obtain ⟨d, hd⟩ := Option.ne_none_iff_exists'.1 hsome
    obtain ⟨hrow, hdt, hdid⟩ := (document?_eq_some_iff h.keeps).1 hd
    have hpartition : (e.liveRow.marked t).address.partition =
        SoftDelete.markKey t (Partition.document t b) := by
      rw [Row.address_marked, Document.address_liveRow het, hid]
      rfl
    have hrestorable : e.liveRow.marked t ∈ T.restorable t id :=
      (mem_restorable_of_partition h.keeps he hpartition).2 hb
    have hback : e.liveRow ∈ lives := (hr.mem_lives (.document e het)).2 hrestorable
    -- the record that comes back names a parent that is not live, and the live one cannot
    have hdiffer : d ≠ e := by
      rintro rfl
      rcases h.parents d hrow hdt a hparent with hlive | hnot
      · rw [ih] at hlive
        cases hlive
      · exact hnot ⟨d, he, hdt, rfl⟩
    have hlost : d.liveRow ∉ T.broughtBack t lives documents :=
      hr.liveRow_lost h.keeps hdt (hdid.trans hid.symm) hback het hdiffer
    exact hlost (hkept d.liveRow hrow (.document d hdt))

theorem Sound.kept_iff (h : T.Sound t) (hr : T.Restores t id lives)
    (hroot : T.document? t id = none) (hne : T.restorable t id ≠ []) (documents : List Document) :
    (∀ row ∈ T, row.IsLive t → row ∈ T.broughtBack t lives documents) ↔
      (∀ m, ReflTransGen (T.IsDeletedChild t) id m → T.document? t m = none) ∧
        ∀ leaf ∈ T, leaf.IsLive t → leaf.isLeaf →
          ∀ w ∈ lastAt (lives ++ pathRows t documents) leaf.address, w = leaf := by
  constructor
  · intro hkept
    refine ⟨fun m hm => h.document?_eq_none_of_kept hr hroot hne hkept hm, ?_⟩
    intro leaf hleaf hlive _
    exact (hr.mem_after_iff documents hleaf hlive).1 (hkept leaf hleaf hlive)
  · rintro ⟨hfamily, hleaves⟩ row hrow hlive
    have hnone : ∀ m ∈ T.deletedFamily t id, T.document? t m = none :=
      fun m hm => hfamily m ((mem_deletedFamily_iff h.keeps hne).1 hm)
    exact h.mem_after hr hnone (hleaves row hrow hlive) hrow hlive

/-- A node of the folder tree is written over by itself only, when no document has the sign in its id
that stands before ids. -/
theorem Restores.eq_of_isPlainNode (hr : T.Restores t id lives) (h : T.Keeps t)
    (hplain : ∀ m, T.Owns m → '#' ∉ m.toList) {w : Row} (hrow : row.IsPlainNode t)
    (hwritten : w ∈ lives ++ pathRows t (T.restorableDocuments t id))
    (ha : w.address = row.address) : w = row := by
  have hwPlain : ∀ m ∈ w.documentId?, '#' ∉ m.toList :=
    fun m hm => hplain m (hr.owns_of_written h hwritten hm)
  have hwLive : w.IsLive t := hr.isLive_of_written hwritten
  have hwNode : w.IsNode t := by
    rcases hwLive.place with ⟨m, hp⟩ | ⟨parents, name, -, rfl⟩ | ⟨m, parents, name, -, rfl⟩
    · rw [ha] at hp
      exact absurd hp (hrow.1.partition_ne m)
    · exact ⟨hwLive, rfl⟩
    · exact ⟨hwLive, rfl⟩
  have hwShelf : w.IsPlainNode t := ⟨hwNode, hwPlain⟩
  exact hwShelf.eq_of_address_eq hrow ha

theorem Restores.eq_leaf_of_plain (hr : T.Restores t id lives) (h : T.Keeps t)
    (hplain : ∀ m, T.Owns m → '#' ∉ m.toList) {w : Row} (hrow : row ∈ T) (hlive : row.IsLive t)
    (hleaf : row.isLeaf)
    (hw : w ∈ lastAt (lives ++ pathRows t (T.restorableDocuments t id)) row.address) : w = row := by
  obtain ⟨hwritten, ha⟩ := mem_of_lastAt hw
  have hrowNode : row.IsPlainNode t := ⟨.of_isLeaf hlive hleaf, fun m hm => hplain m ⟨row, hrow, hm⟩⟩
  exact hr.eq_of_isPlainNode h hplain hrowNode hwritten ha

end Table

namespace Store

theorem restoreDocument_eq_true {t : Tenant} {id : String} {s : Store} (h : s.table.Keeps t)
    (hrestored : ((restoreDocument t id).run s).1 = .ok true) :
    s.table.document? t id = none ∧ s.table.restorable t id ≠ [] ∧
      ∃ lives, s.table.Restores t id lives ∧
        s.table.writtenBack t id =
          lives ++ Table.pathRows t (s.table.restorableDocuments t id) ∧
        ((restoreDocument t id).run s).2.table =
          s.table.broughtBack t lives (s.table.restorableDocuments t id) := by
  obtain ⟨lives, hrestores, hmoves⟩ := Table.exists_restores h id
  rw [run_restoreDocument] at hrestored ⊢
  by_cases hlive : (s.table.document? t id).isSome
  · rw [if_pos hlive] at hrestored
    cases hrestored
  rw [if_neg hlive] at hrestored ⊢
  by_cases hnil : s.table.restorable t id = []
  · rw [if_pos hnil] at hrestored
    cases hrestored
  refine ⟨Option.not_isSome_iff_eq_none.1 hlive, hnil, lives, hrestores, ?_, ?_⟩
  · unfold Table.writtenBack
    rw [hmoves]
    simp only [Table.Restores.snd_backMoves]
  · rw [if_neg hnil, hmoves]
    rfl

/-- In every store that requests of one tenant lead to, a restore keeps all live rows exactly when
none of the documents that it brings back is live, and what it writes last where the leaf of a
document stands is that leaf. -/
theorem restore_keeps_live_iff (c : Config) (name : String) (maxBatchSize : Nat) (clock : Clock)
    {t : Tenant} {requests : List Request} (hrequests : ∀ r ∈ requests, r.tenant = t) {id : String}
    (hrestored : ((restoreDocument t id).run
      (run c (fresh name maxBatchSize clock) requests).2).1 = .ok true) :
    let s := (run c (fresh name maxBatchSize clock) requests).2
    let after := ((restoreDocument t id).run s).2
    (∀ row ∈ s.table, SoftDelete.isMarked t row.address.partition = false → row ∈ after.table) ↔
      (∀ m, ReflTransGen (s.table.IsDeletedChild t) id m → s.table.document? t m = none) ∧
        ∀ leaf ∈ s.table, SoftDelete.isMarked t leaf.address.partition = false → leaf.isLeaf →
          ∀ row ∈ Table.lastAt (s.table.writtenBack t id) leaf.address, row = leaf := by
  intro s after
  have hsound : s.table.Sound t := sound_run hrequests (sound_fresh t name maxBatchSize clock)
  obtain ⟨hroot, hne, lives, hrestores, hwritten, hafter⟩ :=
    restoreDocument_eq_true hsound.keeps hrestored
  have hiff := hsound.kept_iff hrestores hroot hne
    (s.table.restorableDocuments t id)
  have hkept : (∀ row ∈ s.table, SoftDelete.isMarked t row.address.partition = false →
      row ∈ after.table) ↔ ∀ row ∈ s.table, row.IsLive t → row ∈ after.table :=
    forall₂_congr fun row hrow => imp_congr_left (hsound.isMarked_eq_false_iff hrow)
  have hleaves : (∀ leaf ∈ s.table, SoftDelete.isMarked t leaf.address.partition = false →
      leaf.isLeaf → ∀ row ∈ Table.lastAt (s.table.writtenBack t id) leaf.address, row = leaf) ↔
        ∀ leaf ∈ s.table, leaf.IsLive t → leaf.isLeaf →
          ∀ row ∈ Table.lastAt (s.table.writtenBack t id) leaf.address, row = leaf :=
    forall₂_congr fun leaf hleaf => imp_congr_left (hsound.isMarked_eq_false_iff hleaf)
  rw [hkept, hleaves, hwritten]
  show (∀ row ∈ s.table, row.IsLive t → row ∈ ((restoreDocument t id).run s).2.table) ↔ _
  rw [hafter]
  exact hiff

/-- As long as no id has the sign in it that stands before ids, leaves do not matter. -/
theorem restore_keeps_live_iff_of_plain (c : Config) (name : String) (maxBatchSize : Nat)
    (clock : Clock) {t : Tenant} {requests : List Request} (hrequests : ∀ r ∈ requests, r.tenant = t)
    (hplain : ∀ r ∈ requests, ∀ d, r.operation = .saveDocument d → '#' ∉ d.id.toList) {id : String}
    (hrestored : ((restoreDocument t id).run
      (run c (fresh name maxBatchSize clock) requests).2).1 = .ok true) :
    let s := (run c (fresh name maxBatchSize clock) requests).2
    let after := ((restoreDocument t id).run s).2
    (∀ row ∈ s.table, row.IsLive t → row ∈ after.table) ↔
      ∀ m, ReflTransGen (s.table.IsDeletedChild t) id m → s.table.document? t m = none := by
  intro s after
  have hsound : s.table.Sound t := sound_run hrequests (sound_fresh t name maxBatchSize clock)
  obtain ⟨hroot, hne, lives, hrestores, -, hafter⟩ :=
    restoreDocument_eq_true hsound.keeps hrestored
  have hids : ∀ m, s.table.Owns m → '#' ∉ m.toList := by
    intro m hm
    obtain ⟨r, hr, d, hd, rfl⟩ := saved_of_owns c name maxBatchSize clock hrequests hm
    exact hplain r hr d hd
  have hiff := hsound.kept_iff hrestores hroot hne (s.table.restorableDocuments t id)
  show (∀ row ∈ s.table, row.IsLive t → row ∈ ((restoreDocument t id).run s).2.table) ↔ _
  rw [hafter, hiff]
  apply and_iff_left
  intro leaf hrow hlive hleaf w hw
  exact hrestores.eq_leaf_of_plain hsound.keeps hids hrow hlive hleaf hw

def parentSaved : Document where
  id := "p"
  userId := "u"
  inserted := ⟨1704067200, 0⟩
  modified := ⟨1704067200, 0⟩

def childSaved : Document := { parentSaved with id := "c", parent := some "p" }

def strangerSaved : Document := { parentSaved with id := "c", userId := "v" }

def childSavedAgain : List Request :=
  let request (op : Operation) : Request := ⟨.default, ⟨0⟩, op⟩
  [request (.saveDocument parentSaved), request (.saveDocument childSaved),
    request (.deleteDocument "p" true), request (.saveDocument strangerSaved)]

theorem restore_childSavedAgain : (∀ r ∈ childSavedAgain, r.tenant = .default) ∧
    let s := (run {} (fresh "documents" 100 ⟨0⟩) childSavedAgain).2
    let after := ((restoreDocument .default "p").run s).2
    ((restoreDocument .default "p").run s).1 = .ok true ∧
      s.table.IsDeletedChild .default "p" "c" ∧ ¬∀ row ∈ s.table,
        SoftDelete.isMarked .default row.address.partition = false → row ∈ after.table := by
  have hrequests : ∀ r ∈ childSavedAgain, r.tenant = .default := by decide
  have hrestored : ((restoreDocument .default "p").run
      (run {} (fresh "documents" 100 ⟨0⟩) childSavedAgain).2).1 = .ok true := by decide +kernel
  have hchild : (run {} (fresh "documents" 100 ⟨0⟩) childSavedAgain).2.table.IsDeletedChild
      .default "p" "c" := ⟨childSaved, by decide +kernel, rfl, rfl, rfl⟩
  refine ⟨hrequests, hrestored, hchild, fun hkept => ?_⟩
  have hiff := restore_keeps_live_iff {} "documents" 100 ⟨0⟩ hrequests hrestored
  have hnone := (hiff.1 hkept).1 "c" (.single hchild)
  revert hnone
  decide +kernel

/-- The live document is gone, and the old child stands in its place. -/
theorem restore_loses_live_document :
    let s := (run {} (fresh "documents" 100 ⟨0⟩) childSavedAgain).2
    let after := ((restoreDocument .default "p").run s).2
    ((restoreDocument .default "p").run s).1 = .ok true ∧ strangerSaved.liveRow ∈ s.table ∧
      strangerSaved.liveRow ∉ after.table ∧
        after.table.document? .default "c" = some childSaved := by
  intro s after
  decide +kernel

end Store

end Cabinet
