import Cabinet.Proofs.Store.PagingThrough
import Cabinet.Proofs.Store.Soundness
import Cabinet.Proofs.Text.Padded

/-! Listing a folder, page after page. Main statement: the pages list what is in the folder, each node
once, the folders in front and by name; the leaves are by name too exactly when none is put behind a
leaf whose name continues its own. -/

namespace Cabinet

namespace FolderNode

variable {a b : FolderNode}

/-- The order of a listing: folders in front of leaves, and nodes of one kind by name. -/
def Precedes (a b : FolderNode) : Prop :=
  a.kind = .folder ∧ b.kind = .leaf ∨ a.kind = b.kind ∧ a.name ≤ b.name

instance (a b : FolderNode) : Decidable (a.Precedes b) := inferInstanceAs (Decidable (_ ∨ _))

/-- Of leaves with names of which the second continues the first, what is added sorts behind the sign
that ends a name. -/
def KeepsAhead (a b : FolderNode) : Prop :=
  ∀ id ∈ a.documentId, ∀ id' ∈ b.documentId, ∀ rest ∈ Text.dropFront? a.name b.name, rest ≠ "" →
    delimiter ++ id < rest ++ delimiter ++ id'

instance (a b : FolderNode) : Decidable (a.KeepsAhead b) :=
  inferInstanceAs (Decidable (∀ id ∈ a.documentId, ∀ id' ∈ b.documentId,
    ∀ rest ∈ Text.dropFront? a.name b.name, rest ≠ "" → delimiter ++ id < rest ++ delimiter ++ id'))

def IsFiled (n : FolderNode) : Prop := n.kind = .leaf ↔ n.documentId.isSome

theorem IsFiled.cases {n : FolderNode} (h : n.IsFiled) :
    (n.kind = .folder ∧ n.documentId = none ∧ n.sortKey = "ff#" ++ n.name) ∨
      ∃ id, n.kind = .leaf ∧ n.documentId = some id ∧
        n.sortKey = "fi#" ++ (n.name ++ delimiter ++ id) := by
  obtain ⟨kind, name, path, id, parent⟩ := n
  cases kind <;> cases id <;> simp [IsFiled] at h
  · exact .inl ⟨rfl, rfl, rfl⟩
  · refine .inr ⟨_, rfl, rfl, ?_⟩
    simp only [sortKey, SortKey.leaf, String.append_assoc]

theorem folder_lt_leaf (x y : String) : "ff#" ++ x < "fi#" ++ y := by
  rw [String.lt_iff, String.toList_append, String.toList_append]
  exact List.cons_lt_cons_iff.2 (.inr ⟨rfl, List.cons_lt_cons_iff.2 (.inl (by decide))⟩)

theorem kind_of_lt (ha : a.IsFiled) (hb : b.IsFiled) (h : a.sortKey < b.sortKey)
    (hkind : b.kind = .folder) : a.kind = .folder ∧ a.name < b.name := by
  rcases hb.cases with ⟨-, -, hsort'⟩ | ⟨id', hleaf, -⟩
  · rcases ha.cases with ⟨hfolder, -, hsort⟩ | ⟨id, -, -, hsort⟩
    · rw [hsort, hsort', Text.append_lt_append_iff] at h
      exact ⟨hfolder, h⟩
    · rw [hsort, hsort'] at h
      exact absurd h (String.lt_asymm (folder_lt_leaf _ _))
  · rw [hkind] at hleaf
    cases hleaf

theorem precedes_of_lt (ha : a.IsFiled) (hb : b.IsFiled) (h : a.sortKey < b.sortKey)
    (hahead : b.KeepsAhead a) : a.Precedes b := by
  rcases hb.cases with ⟨hkind, -⟩ | ⟨id', hkind', hid', hsort'⟩
  · obtain ⟨hfolder, hlt⟩ := kind_of_lt ha hb h hkind
    exact .inr ⟨hfolder.trans hkind.symm, hlt.le⟩
  rcases ha.cases with ⟨hkind, -⟩ | ⟨id, hkind, hid, hsort⟩
  · exact .inl ⟨hkind, hkind'⟩
  refine .inr ⟨hkind.trans hkind'.symm, String.not_lt.1 fun hlt => ?_⟩
  rw [hsort, hsort', Text.append_lt_append_iff] at h
  refine absurd h (String.lt_asymm ?_)
  rcases Text.lt_cases hlt with ⟨rest, hrest, hname⟩ | hall
  · have hbehind := hahead id' hid' id hid rest (Text.dropFront?_eq_some_iff.2 hname) hrest
    rw [hname, String.append_assoc, String.append_assoc, String.append_assoc,
      Text.append_lt_append_iff, ← String.append_assoc]
    exact hbehind
  · rw [String.append_assoc, String.append_assoc]
    exact hall _ _

theorem keepsAhead_of_or (ha : a.IsFiled) (hb : b.IsFiled)
    (h : a.sortKey < b.sortKey ∨ b.Precedes a) : a.KeepsAhead b := by
  intro id hid id' hid' rest hrest hne
  have hname := Text.dropFront?_eq_some_iff.1 hrest
  rcases ha.cases with ⟨-, hnone, -⟩ | ⟨_, hkind, hdocument, hsort⟩
  · cases hnone.symm.trans hid
  rcases hb.cases with ⟨-, hnone, -⟩ | ⟨_, hkind', hdocument', hsort'⟩
  · cases hnone.symm.trans hid'
  obtain rfl := Option.some.inj (hdocument.symm.trans hid)
  obtain rfl := Option.some.inj (hdocument'.symm.trans hid')
  rcases h with hlt | ⟨hfolder, -⟩ | ⟨-, hle⟩
  · rw [hsort, hsort', Text.append_lt_append_iff, hname, String.append_assoc, String.append_assoc,
      String.append_assoc, Text.append_lt_append_iff, ← String.append_assoc] at hlt
    exact hlt
  · cases hkind'.symm.trans hfolder
  · rw [hname] at hle
    exact absurd (Text.lt_append hne) (String.not_lt.2 hle)

theorem keepsAhead_self (a : FolderNode) : a.KeepsAhead a := by
  intro id _ id' _ rest hrest hne
  have hname : a.name ++ "" = a.name ++ rest :=
    String.append_empty.trans (Text.dropFront?_eq_some_iff.1 hrest)
  exact absurd (String.append_right_inj _ |>.1 hname).symm hne

/-- Filed nodes in the order of their sort keys are in the order of a listing just when every leaf
keeps ahead of the others. -/
theorem pairwise_precedes_iff {nodes : List FolderNode} (hfiled : ∀ n ∈ nodes, n.IsFiled)
    (hsorted : nodes.Pairwise fun a b => a.sortKey < b.sortKey) :
    nodes.Pairwise Precedes ↔ ∀ a ∈ nodes, ∀ b ∈ nodes, a.KeepsAhead b := by
  constructor
  · intro hprecedes
    have hboth : nodes.Pairwise fun a b => a.KeepsAhead b ∧ b.KeepsAhead a :=
      (hsorted.and hprecedes).imp_of_mem fun {a b} ha hb h =>
        ⟨keepsAhead_of_or (hfiled a ha) (hfiled b hb) (.inl h.1),
          keepsAhead_of_or (hfiled b hb) (hfiled a ha) (.inr h.2)⟩
    have symm : Std.Symm fun a b : FolderNode => a.KeepsAhead b ∧ b.KeepsAhead a :=
      ⟨fun _ _ h => h.symm⟩
    have hall := List.Pairwise.forall_of_forall
      (fun a _ => ⟨keepsAhead_self a, keepsAhead_self a⟩) hboth
    exact fun a ha b hb => (hall ha hb).1
  · intro hahead
    exact hsorted.imp_of_mem fun {a b} ha hb hlt =>
      precedes_of_lt (hfiled a ha) (hfiled b hb) hlt (hahead b hb a ha)

end FolderNode

def Query.ofFolder (t : Tenant) (path : String) : Query :=
  { index := .primary, partition := Path.folderKey t path }

namespace Table

variable {t : Tenant} {T : Table} {path : String} {row : Row} {n : FolderNode}

def HasNode (T : Table) (t : Tenant) (path : String) (n : FolderNode) : Prop :=
  n.row t ∈ T ∧ n.parentKey = Path.folderKey t path

instance (T : Table) (t : Tenant) (path : String) (n : FolderNode) :
    Decidable (T.HasNode t path n) := inferInstanceAs (Decidable (_ ∧ _))

theorem mem_queryAll_ofFolder : row ∈ T.queryAll (.ofFolder t path) ↔
    row ∈ T ∧ row.address.partition = Path.folderKey t path := mem_partitionRows

theorem exists_node (h : T.Keeps t) (hrow : row ∈ T.queryAll (.ofFolder t path)) :
    ∃ n : FolderNode, Folder.ofRow? row = some n ∧ row = n.row t ∧ n.IsFiled := by
  obtain ⟨hmem, hp⟩ := mem_queryAll_ofFolder.1 hrow
  have hlive := h.isLive_of_partition hmem (hp ▸ Partition.isLive_folderKey)
  obtain ⟨name, hnames, rfl | ⟨id, rfl⟩⟩ := hlive.eq_node_or_leaf hp
  · refine ⟨_, Folder.ofRow?_node (hnames name (by simp)).1, rfl, ?_⟩
    simp [FolderNode.IsFiled, Folder.node]
  · refine ⟨_, Folder.ofRow?_leaf (hnames name (by simp)).1, rfl, ?_⟩
    simp [FolderNode.IsFiled, Folder.leaf]

theorem ofRow?_eq_some_iff (h : T.Keeps t) (hrow : row ∈ T.queryAll (.ofFolder t path)) :
    Folder.ofRow? row = some n ↔ row = n.row t := by
  obtain ⟨m, hm, rfl, -⟩ := exists_node h hrow
  rw [hm, Option.some_inj]
  exact ⟨congrArg _, fun he => Record.folderNode.inj (congrArg Row.record he)⟩

def nodes (T : Table) (t : Tenant) (path : String) : List FolderNode :=
  (T.queryAll (.ofFolder t path)).filterMap Folder.ofRow?

theorem mem_nodes (h : T.Keeps t) : n ∈ T.nodes t path ↔ T.HasNode t path n := by
  rw [nodes, List.mem_filterMap]
  constructor
  · rintro ⟨row, hrow, hn⟩
    obtain rfl := (ofRow?_eq_some_iff h hrow).1 hn
    exact mem_queryAll_ofFolder.1 hrow
  · intro hn
    have hrow : n.row t ∈ T.queryAll (.ofFolder t path) := mem_queryAll_ofFolder.2 hn
    exact ⟨n.row t, hrow, (ofRow?_eq_some_iff h hrow).2 rfl⟩

theorem isFiled_of_mem_nodes (h : T.Keeps t) (hn : n ∈ T.nodes t path) : n.IsFiled := by
  obtain ⟨row, hrow, hread⟩ := List.mem_filterMap.1 hn
  obtain ⟨m, hm, -, hfiled⟩ := exists_node h hrow
  exact Option.some.inj (hm.symm.trans hread) ▸ hfiled

theorem nodes_pairwise (h : T.Keeps t) :
    (T.nodes t path).Pairwise fun a b => a.sortKey < b.sortKey := by
  rw [nodes, List.pairwise_filterMap]
  refine (queryAll_pairwise (q := .ofFolder t path) rfl rfl rfl).imp_of_mem
    fun {r r'} hr hr' hlt a ha b hb => ?_
  rwa [(ofRow?_eq_some_iff h hr).1 ha, (ofRow?_eq_some_iff h hr').1 hb] at hlt

theorem nodup_nodes (h : T.Keeps t) : (T.nodes t path).Nodup :=
  (nodes_pairwise h).imp fun hlt he => absurd (he ▸ hlt) (String.lt_irrefl _)

end Table

namespace Store

variable {c : Config} {t : Tenant} {path : String} {requests : List Request} {s : Store}

def nodesOnly (page : Page Row) : Page FolderNode :=
  page.withItems (page.items.filterMap Folder.ofRow?)

theorem ends_nodesOnly (pages : List (Page Row)) :
    Page.Ends (pages.map nodesOnly) ↔ Page.Ends pages :=
  Page.ends_map fun _ => rfl

theorem flatMap_nodesOnly (pages : List (Page Row)) : (pages.map nodesOnly).flatMap Page.items =
    (pages.flatMap Page.items).filterMap Folder.ofRow? := by
  rw [List.flatMap_map, List.filterMap_flatMap]
  rfl

theorem listFolder_pages (hissued : s.HoldsIssued) {size : Option Int} {turns : List Turn}
    (hsteady : Steady s.table.rows
      (pageThrough c t (.listFolder path {}) s { limit := size } turns))
    (htime : Timely c turns) :
    ∃ pages : List (Page FolderNode),
      (pageThrough c t (.listFolder path {}) s { limit := size } turns).map (·.2) =
        pages.map (fun page => .ok (.nodePage page)) ∧
      (s.table.rows.size < turns.length → Page.Ends pages) ∧
      (Page.Ends pages → pages.flatMap Page.items = s.table.nodes t path) := by
  obtain ⟨pages, hpages, -, hcuts, hends⟩ := pageThrough_eq
    (Operation.Pages.folder (c := c) (t := t) path {}) (fun _ _ _ _ => ⟨_, rfl⟩) hissued hsteady htime
  refine ⟨(pages.map (·.2)).map nodesOnly, ?_, fun hturns => (ends_nodesOnly _).2 (hends hturns),
    fun hlast => ?_⟩
  · rw [hpages, List.map_map, List.map_map, List.map_map]
    rfl
  · rw [flatMap_nodesOnly, hcuts.items_eq ((ends_nodesOnly _).1 hlast), Table.nodes, Table.queryAll,
      Query.drain_eq, Query.remaining_of_start_none rfl]
    rfl

/-- After any requests of one tenant, a folder is listed page by page while the table stays the same:
all pages are answered, and up to the last one they hold each node of the folder once, the folders in
front and by name. The leaves are by name too exactly when every leaf keeps ahead of the others. -/
theorem folder_listing_ordered_iff (c : Config) (name : String) (maxBatchSize : Nat) (clock : Clock)
    (hrequests : ∀ r ∈ requests, r.tenant = t) (path : String) (size : Option Int)
    (turns : List Turn) :
    let s := (run c (fresh name maxBatchSize clock) requests).2
    let answers := pageThrough c t (.listFolder path {}) s { limit := size } turns
    Steady s.table.rows answers → Timely c turns →
      ∃ pages : List (Page FolderNode),
        answers.map (·.2) = pages.map (fun page => .ok (.nodePage page)) ∧
        (s.table.rows.size < turns.length → Page.Ends pages) ∧
        (Page.Ends pages →
          let nodes := pages.flatMap Page.items
          nodes.Nodup ∧ (∀ n, n ∈ nodes ↔ s.table.HasNode t path n) ∧
            nodes.Pairwise (fun a b => b.kind = .folder → a.kind = .folder ∧ a.name < b.name) ∧
            (nodes.Pairwise FolderNode.Precedes ↔ ∀ a ∈ nodes, ∀ b ∈ nodes, a.KeepsAhead b)) := by
  intro s answers hsteady htime
  have hkeeps : s.table.Keeps t := (sound_run hrequests (sound_fresh t name maxBatchSize clock)).keeps
  obtain ⟨pages, hpages, hends, hitems⟩ :=
    listFolder_pages (holdsIssued_run (holdsIssued_fresh name maxBatchSize clock)) hsteady htime
  refine ⟨pages, hpages, hends, fun hlast => ?_⟩
  rw [hitems hlast]
  have hfiled : ∀ n ∈ s.table.nodes t path, n.IsFiled := fun n => Table.isFiled_of_mem_nodes hkeeps
  have hsorted : (s.table.nodes t path).Pairwise fun a b => a.sortKey < b.sortKey :=
    Table.nodes_pairwise hkeeps
  refine ⟨Table.nodup_nodes hkeeps, fun n => Table.mem_nodes hkeeps, ?_,
    FolderNode.pairwise_precedes_iff hfiled hsorted⟩
  exact hsorted.imp_of_mem fun {a b} ha hb hlt => FolderNode.kind_of_lt (hfiled a ha) (hfiled b hb) hlt

def filedAt (id path : String) : Document where
  id := id
  path := some path
  userId := "u"
  inserted := ⟨1704067200, 0⟩
  modified := ⟨1704067200, 0⟩

def lettersFiled : List Request :=
  let file (id path : String) : Request := ⟨.default, ⟨0⟩, .saveDocument (filedAt id path)⟩
  [file "1" "b/x", file "2" "a.txt", file "3" "a"]

def nodesOf : Except Error Answer → List FolderNode
  | .ok (.nodePage page) => page.items
  | _ => []

theorem folder_listing_ordered_lettersFiled : (∀ r ∈ lettersFiled, r.tenant = .default) ∧
    let s := (run {} (fresh "documents" 100 ⟨0⟩) lettersFiled).2
    let turns := List.replicate 8 ⟨[], ⟨0⟩⟩
    let answers := pageThrough {} .default (.listFolder "" {}) s { limit := some 2 } turns
    Steady s.table.rows answers ∧ Timely {} turns ∧
      (answers.map (·.2)).map nodesOf =
        [[Folder.node .default [] "b", Folder.leaf .default "3" [] "a"],
          [Folder.leaf .default "2" [] "a.txt"]] ∧
      ((answers.map (·.2)).flatMap nodesOf).Pairwise FolderNode.Precedes := by
  have hrequests : ∀ r ∈ lettersFiled, r.tenant = .default := by decide
  refine ⟨hrequests, ?_⟩
  intro s turns answers
  have hsteady : Steady s.table.rows answers := steady_of_quiet (.folder "" {}) fun turn hturn => by
    rw [List.eq_of_mem_replicate hturn]
  have htime : Timely {} turns := timely_replicate (by decide) 8 ⟨0⟩
  obtain ⟨pages, hpages, hends, hordered⟩ :=
    folder_listing_ordered_iff {} "documents" 100 ⟨0⟩ hrequests "" (some 2) turns hsteady htime
  have hlast : Page.Ends pages := hends (by decide +kernel)
  have hnodes : pages.flatMap Page.items = (answers.map (·.2)).flatMap nodesOf := by
    rw [hpages, List.flatMap_map]
    rfl
  have hshown : (answers.map (·.2)).map nodesOf =
      [[Folder.node .default [] "b", Folder.leaf .default "3" [] "a"],
        [Folder.leaf .default "2" [] "a.txt"]] := by
    decide +kernel
  refine ⟨hsteady, htime, hshown, ?_⟩
  obtain ⟨-, -, -, hiff⟩ := hordered hlast
  rw [hnodes] at hiff
  refine hiff.2 ?_
  rw [List.flatMap_def, hshown]
  decide +kernel

/-- A leaf whose name continues that of another by a space is listed in front of it. -/
theorem folder_listing_out_of_order :
    let file (id path : String) : Request := ⟨.default, ⟨0⟩, .saveDocument (filedAt id path)⟩
    let s := (run {} (fresh "documents" 100 ⟨0⟩) [file "1" "notes", file "2" "notes 2"]).2
    let listed := [Folder.leaf .default "2" [] "notes 2", Folder.leaf .default "1" [] "notes"]
    (s.step {} ⟨.default, ⟨0⟩, .listFolder "" {}⟩).1 = .ok (.nodePage { items := listed }) ∧
      ¬ listed.Pairwise FolderNode.Precedes := by
  decide +kernel

end Store

end Cabinet
