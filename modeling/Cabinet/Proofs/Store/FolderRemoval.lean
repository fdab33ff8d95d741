import Cabinet.Proofs.Store.Leaves
import Cabinet.Proofs.Table.Moves

/-! Removing empty folders. Main statement: one row goes, and it is the folder of the path, with nothing
in it, exactly when there is such a folder. -/

namespace Cabinet

namespace Table

variable {t : Tenant} {T : Table} {path parent : String} {row : Row} {a : Address}

def HasFolder (T : Table) (t : Tenant) (path : String) : Prop :=
  ∃ parents name, Path.segments path = parents ++ [name] ∧ (Folder.node t parents name).row t ∈ T

/-- The row is that of the folder at the path, and the table has no row in that folder. -/
def IsEmptyFolder (T : Table) (t : Tenant) (path : String) (row : Row) : Prop :=
  ∃ node, row.folderNode? = some node ∧ node.kind = .folder ∧ node.path = Path.normalize path ∧
    ∀ r ∈ T, r.address.partition ≠ Path.folderKey t node.path

theorem isEmptyFolder_iff (hlive : row.IsLive t) (hp : row.address.partition = Path.folderKey t parent)
    (hempty : ∀ r ∈ T, r.address.partition ≠ Path.folderKey t path) :
    T.IsEmptyFolder t path row ↔ ∃ parents name, Path.segments path = parents ++ [name] ∧
      row = (Folder.node t parents name).row t := by
  constructor
  · rintro ⟨node, hnode, hkind, hpath, -⟩
    obtain ⟨name, hnames, rfl | ⟨id, rfl⟩⟩ := hlive.eq_node_or_leaf hp
    · cases hnode
      refine ⟨Path.segments parent, name, ?_, rfl⟩
      have hsegments := congrArg Path.segments hpath
      rwa [Path.normalize, Path.segments_join fun s hs => Path.isName_of_mem_segments hs,
        Folder.node, Path.segments_join hnames, eq_comm] at hsegments
    · cases hnode
      cases hkind
  · rintro ⟨parents, name, hsegments, rfl⟩
    have hpath : Path.join (parents ++ [name]) = Path.normalize path := by
      rw [← hsegments, Path.normalize]
    refine ⟨Folder.node t parents name, rfl, rfl, hpath, ?_⟩
    rw [Folder.node, hpath, Path.normalize, Path.folderKey_join_segments]
    exact hempty

theorem exists_of_emptyFolder (h : T.Keeps t) (ha : T.emptyFolder t path = .ok a) :
    ∃ row ∈ T, row.address = a ∧ (T.IsEmptyFolder t path row ↔ T.HasFolder t path) ∧
      (¬ T.HasFolder t path → ∃ parents name, Path.segments path = parents ++ [name] ∧
        row.address = ⟨Path.folderKey t (Path.join parents), name⟩) := by
  obtain ⟨parents, name, row, hsegments, hrow, hempty, hplace⟩ := emptyFolder_cases ha
  obtain ⟨hmem, haddress⟩ := get?_eq_some_iff.1 hrow
  have hp : row.address.partition = Path.folderKey t (Path.join parents) := by
    rw [haddress]
    rcases hplace with rfl | ⟨rfl, -⟩ <;> rfl
  have hlive := h.isLive_of_partition hmem (hp ▸ Partition.isLive_folderKey)
  have hiff := isEmptyFolder_iff hlive hp hempty
  refine ⟨row, hmem, haddress, hiff.trans ⟨?_, ?_⟩, fun hnot => ?_⟩
  · rintro ⟨parents, name, hsegments, rfl⟩
    exact ⟨parents, name, hsegments, hmem⟩
  · rintro ⟨parents', name', hsegments', hfolder⟩
    obtain ⟨rfl, hname⟩ := List.append_inj' (hsegments.symm.trans hsegments') rfl
    obtain rfl := List.singleton_inj.1 hname
    refine ⟨parents, name, hsegments, ?_⟩
    rcases hplace with rfl | ⟨-, hnone⟩
    · exact eq_of_address_eq hmem hfolder haddress
    · exact absurd rfl (get?_eq_none_iff.1 hnone _ hfolder)
  · rcases hplace with rfl | ⟨rfl, -⟩
    · have hnames : ∀ s ∈ parents ++ [name], Path.IsName s := fun s hs =>
        Path.isName_of_mem_segments (hsegments ▸ hs)
      rw [hlive.eq_folder hnames haddress] at hmem
      exact absurd ⟨parents, name, hsegments, hmem⟩ hnot
    · exact ⟨parents, name, hsegments, haddress⟩

end Table

namespace Store

variable {t : Tenant} {c : Config} {s : Store} {r : Request}

theorem step_deleteEmptyFolder {path : String} (h : r.operation = .deleteEmptyFolder path) :
    s.step c r = match s.table.emptyFolder r.tenant path with
      | .ok a => (.ok .done, { s with clock := r.clock, table := s.table.erase a })
      | .error e => (.error e, { s with clock := r.clock }) := by
  unfold step
  rw [h]
  simp only [Operation.perform, Action.run_bind, run_deleteEmptyFolder]
  cases s.table.emptyFolder r.tenant path <;> rfl

/-- After any requests of one tenant, removing the empty folder at a path removes one row. That is the
folder at the path, with nothing in it, exactly when there is such a folder; otherwise it is whatever
has the last name of the path as its sort key. -/
theorem emptyFolder_removal (c : Config) (name : String) (maxBatchSize : Nat) (clock now : Clock)
    {requests : List Request} (hrequests : ∀ r ∈ requests, r.tenant = t) (path : String) :
    let s := (run c (fresh name maxBatchSize clock) requests).2
    let after := s.step c ⟨t, now, .deleteEmptyFolder path⟩
    after.1 = .ok .done → ∃ row ∈ s.table,
      (∀ r, r ∈ after.2.table ↔ r ∈ s.table ∧ r ≠ row) ∧
      after.2.table.rows.size + 1 = s.table.rows.size ∧
      (s.table.IsEmptyFolder t path row ↔ s.table.HasFolder t path) ∧
      (¬ s.table.HasFolder t path → ∃ parents name, Path.segments path = parents ++ [name] ∧
        row.address = ⟨Path.folderKey t (Path.join parents), name⟩) := by
  intro s after hdone
  have hsound : s.table.Sound t := sound_run hrequests (sound_fresh t name maxBatchSize clock)
  have hstep := step_deleteEmptyFolder (c := c) (s := s)
    (r := ⟨t, now, .deleteEmptyFolder path⟩) rfl
  cases ha : s.table.emptyFolder t path with
  | error e =>
    rw [ha] at hstep
    have hanswer : after.1 = .error e := congrArg Prod.fst hstep
    rw [hanswer] at hdone
    cases hdone
  | ok a =>
    rw [ha] at hstep
    obtain ⟨row, hmem, rfl, hiff, hbare⟩ := Table.exists_of_emptyFolder hsound.keeps ha
    have hafter : after.2.table = s.table.erase row.address := congrArg (·.2.table) hstep
    rw [hafter]
    refine ⟨row, hmem, fun r => ?_, ?_, hiff, hbare⟩
    · rw [Table.mem_erase]
      exact and_congr_right fun hr =>
        not_congr ⟨Table.eq_of_address_eq hr hmem, congrArg Row.address⟩
    · have hget : s.table.rows.get? row.address = some row := Table.get?_address hmem
      have hsize := s.table.rows.size_erase row.address
      rwa [hget] at hsize

def noteDeleted : List Request :=
  let request (op : Operation) : Request := ⟨.default, ⟨0⟩, op⟩
  [request (.saveDocument (note "a/x")), request (.deleteDocument "n" false)]

theorem emptyFolder_removal_noteDeleted : (∀ r ∈ noteDeleted, r.tenant = .default) ∧
    let s := (run {} (fresh "documents" 100 ⟨0⟩) noteDeleted).2
    let after := s.step {} ⟨.default, ⟨0⟩, .deleteEmptyFolder "/a/"⟩
    after.1 = .ok .done ∧ ∃ row ∈ s.table, s.table.IsEmptyFolder .default "/a/" row ∧
      ∀ r, r ∈ after.2.table ↔ r ∈ s.table ∧ r ≠ row := by
  have hrequests : ∀ r ∈ noteDeleted, r.tenant = .default := by decide
  have hdone : ((run {} (fresh "documents" 100 ⟨0⟩) noteDeleted).2.step {}
      ⟨.default, ⟨0⟩, .deleteEmptyFolder "/a/"⟩).1 = .ok .done := by
    decide +kernel
  have hfolder : (run {} (fresh "documents" 100 ⟨0⟩) noteDeleted).2.table.HasFolder .default "/a/" :=
    ⟨[], "a", by decide +kernel, by decide +kernel⟩
  obtain ⟨row, hmem, hafter, -, hiff, -⟩ :=
    emptyFolder_removal {} "documents" 100 ⟨0⟩ ⟨0⟩ hrequests "/a/" hdone
  exact ⟨hrequests, hdone, row, hmem, hiff.2 hfolder, hafter⟩

/-- Without a folder at the path, the leaf of a live document goes, or a folder with a leaf in it. -/
theorem emptyFolder_removes_leaf_or_parent :
    let s := (run {} (fresh "documents" 100 ⟨0⟩) [⟨.default, ⟨0⟩, .saveDocument (note "a/x")⟩]).2
    let folder := (Folder.node .default [] "a").row .default
    let leaf := (Folder.leaf .default "n" ["a"] "x").row .default
    let withoutLeaf := s.step {} ⟨.default, ⟨0⟩, .deleteEmptyFolder "a/fi#x#n"⟩
    let withoutFolder := s.step {} ⟨.default, ⟨0⟩, .deleteEmptyFolder "ff#a"⟩
    leaf ∈ s.table ∧ folder ∈ s.table ∧ ¬ s.table.IsEmptyFolder .default "a/fi#x#n" leaf ∧
      withoutLeaf.1 = .ok .done ∧ leaf ∉ withoutLeaf.2.table ∧
      withoutFolder.1 = .ok .done ∧ folder ∉ withoutFolder.2.table ∧
      leaf ∈ withoutFolder.2.table ∧ leaf.address.partition = Path.folderKey .default "a" := by
  intro s folder leaf withoutLeaf withoutFolder
  have hleaf : ¬ s.table.IsEmptyFolder .default "a/fi#x#n" leaf := by
    rintro ⟨node, hnode, hkind, -⟩
    cases hnode
    cases hkind
  exact ⟨by decide +kernel, by decide +kernel, hleaf, by decide +kernel, by decide +kernel,
    by decide +kernel, by decide +kernel, by decide +kernel, by decide +kernel⟩

end Store

end Cabinet
