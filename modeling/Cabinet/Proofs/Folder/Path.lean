import Cabinet.Folder.Tree

/-! Names in paths and the rows of a path. Main statements: a path is determined by its names, and
the leaf among the rows of a path is the one that is looked up. -/

namespace Cabinet

namespace Path

/-- What can stand between two slashes. -/
def IsName (s : String) : Prop := s ≠ "" ∧ '/' ∉ s.toList

theorem isName_of_mem_segments {path s : String} (h : s ∈ segments path) : IsName s := by
  simp only [segments, Text.splitAt, List.mem_filter, List.mem_map, decide_eq_true_eq] at h
  obtain ⟨⟨p, hp, rfl⟩, hne⟩ := h
  exact ⟨hne, by simpa using Text.not_mem_of_mem_pieces hp⟩

theorem splitAt_join {names : List String} (h : ∀ s ∈ names, IsName s) (hne : names ≠ []) :
    Text.splitAt '/' (join names) = names := by
  induction names with
  | nil => exact absurd rfl hne
  | cons s names ih =>
    have hs := (h s List.mem_cons_self).2
    cases names with
    | nil => simp [Text.splitAt, join, Text.pieces_of_not_mem hs]
    | cons s' names =>
      have ih := ih (fun x hx => h x (List.mem_cons_of_mem s hx)) (List.cons_ne_nil s' names)
      unfold Text.splitAt at ih ⊢
      have hsplit : (join (s :: s' :: names)).toList =
          s.toList ++ '/' :: (join (s' :: names)).toList := by
        simp [join, Text.joinWith]
      rw [hsplit, Text.pieces_append_cons hs, List.map_cons, ih, String.ofList_toList]

theorem segments_join {names : List String} (h : ∀ s ∈ names, IsName s) :
    segments (join names) = names := by
  by_cases hne : names = []
  · subst hne
    rfl
  · rw [segments, splitAt_join h hne]
    exact List.filter_eq_self.2 fun s hs => by simpa using (h s hs).1

theorem folderKey_join_injective {t : Tenant} {names names' : List String}
    (h : ∀ s ∈ names, IsName s) (h' : ∀ s ∈ names', IsName s)
    (e : folderKey t (join names) = folderKey t (join names')) : names = names' := by
  have e := Tenant.key_injective e
  rw [String.append_right_inj, normalize, normalize, segments_join h, segments_join h'] at e
  rw [← segments_join h, e, segments_join h']

theorem folderKey_join_segments {t : Tenant} (path : String) :
    folderKey t (join (segments path)) = folderKey t path := by
  rw [folderKey, normalize, segments_join fun s hs => isName_of_mem_segments hs]
  rfl

theorem exists_of_split? {path parent name : String} (h : split? path = some (parent, name)) :
    ∃ parents, segments path = parents ++ [name] ∧ parent = join parents := by
  obtain ⟨last, hlast, he⟩ := Option.map_eq_some_iff.1 h
  obtain ⟨rfl, rfl⟩ := Prod.mk.inj he
  obtain ⟨parents, hparents⟩ := List.getLast?_eq_some_iff.1 hlast
  exact ⟨parents, hparents, by rw [hparents, List.dropLast_concat]⟩

end Path

namespace Folder

variable {t : Tenant} {id path : String} {row : Row}

theorem mem_chain {endsInFolder : Bool} {parents names : List String} {n : FolderNode}
    (h : n ∈ chain t id endsInFolder parents names) :
    ∃ front name, front ++ [name] <+: names ∧ (n = node t (parents ++ front) name ∨
      endsInFolder = false ∧ names = front ++ [name] ∧ n = leaf t id (parents ++ front) name) := by
  fun_induction chain t id endsInFolder parents names with
  | case1 => cases h
  | case2 parents name =>
    refine ⟨[], name, List.prefix_rfl, ?_⟩
    rw [List.append_nil]
    cases endsInFolder with
    | true => exact .inl (by simpa using h)
    | false => exact .inr ⟨rfl, rfl, by simpa using h⟩
  | case3 parents name next rest ih =>
    rcases List.mem_cons.1 h with rfl | h
    · exact ⟨[], name, ⟨next :: rest, rfl⟩, .inl (by rw [List.append_nil])⟩
    · obtain ⟨front, last, ⟨back, hback⟩, hn⟩ := ih h
      refine ⟨name :: front, last, ⟨back, congrArg (name :: ·) hback⟩, ?_⟩
      rw [List.append_assoc] at hn
      exact hn.imp_right fun ⟨hf, hnames, hn⟩ => ⟨hf, congrArg (name :: ·) hnames, hn⟩

def isLeafRow (row : Row) : Bool := row.folderNode?.any (·.kind = .leaf)

theorem find?_chain (t : Tenant) (id : String) (endsInFolder : Bool)
    (parents names : List String) : (chain t id endsInFolder parents names).find? (·.kind = .leaf) =
      if endsInFolder then none
      else names.getLast?.map (leaf t id (parents ++ names.dropLast)) := by
  fun_induction chain t id endsInFolder parents names with
  | case1 => simp
  | case2 parents name => cases endsInFolder <;> simp [node, leaf]
  | case3 parents name next rest ih =>
    rw [List.find?_cons, node]
    simp [ih]

theorem leafRow?_eq_find? (t : Tenant) (id path : String) :
    leafRow? t id path = (rowsOfPath t id (some path)).find? isLeafRow := by
  have hkind : isLeafRow ∘ FolderNode.row t = fun n => decide (n.kind = .leaf) := rfl
  rw [rowsOfPath, List.find?_map, hkind, find?_chain, leafRow?, List.nil_append]
  split
  · rfl
  · rw [Option.map_map]
    rfl

theorem mem_rowsOfPath (h : row ∈ rowsOfPath t id (some path)) :
    ∃ parents name, (∀ s ∈ parents ++ [name], Path.IsName s) ∧
      (row = (node t parents name).row t ∨
        row = (leaf t id parents name).row t ∧ leafRow? t id path = some row) := by
  simp only [rowsOfPath, List.mem_map] at h
  obtain ⟨n, hn, rfl⟩ := h
  obtain ⟨front, name, hfront, hn⟩ := mem_chain hn
  refine ⟨front, name, fun s hs => Path.isName_of_mem_segments (hfront.subset hs), ?_⟩
  rcases hn with rfl | ⟨hfolder, hnames, rfl⟩
  · exact .inl rfl
  · refine .inr ⟨rfl, ?_⟩
    rw [leafRow?, hfolder, hnames]
    simp

theorem leafRow?_mem_rowsOfPath (h : leafRow? t id path = some row) :
    row ∈ rowsOfPath t id (some path) := by
  rw [leafRow?_eq_find?] at h
  exact List.mem_of_find?_eq_some h

theorem exists_of_leafRow? (h : leafRow? t id path = some row) :
    ∃ parents name, (∀ s ∈ parents ++ [name], Path.IsName s) ∧
      row = (leaf t id parents name).row t := by
  unfold leafRow? at h
  split at h
  · cases h
  · obtain ⟨name, hname, rfl⟩ := Option.map_eq_some_iff.1 h
    refine ⟨_, name, fun s hs => ?_, rfl⟩
    have hsegments : s ∈ Path.segments path → Path.IsName s := Path.isName_of_mem_segments
    apply hsegments
    obtain ⟨front, hfront⟩ := List.getLast?_eq_some_iff.1 hname
    rw [hfront] at hs ⊢
    simpa using hs

theorem kindAndName_leaf (name id : String) :
    kindAndName (SortKey.leaf name ++ delimiter ++ id) (some id) = (.leaf, name) := by
  have hfolder :
      Text.dropFront? (SortKey.folder "") (SortKey.leaf name ++ delimiter ++ id) = none := by
    refine Text.dropFront?_eq_none_iff.2 fun rest he => ?_
    have hlist := congrArg String.toList he
    simp [SortKey.leaf, SortKey.folder] at hlist
  have hleaf : Text.dropFront? (SortKey.leaf "") (SortKey.leaf name ++ delimiter ++ id) =
      some (name ++ delimiter ++ id) := by
    refine Text.dropFront?_eq_some_iff.2 ?_
    simp only [SortKey.leaf, String.append_assoc, String.append_empty]
  have hid : Text.dropBack? id (name ++ delimiter ++ id) = some (name ++ delimiter) :=
    Text.dropBack?_eq_some_iff.2 rfl
  have hname : Text.dropBack? delimiter (name ++ delimiter) = some name :=
    Text.dropBack?_eq_some_iff.2 rfl
  rw [kindAndName, hfolder, hleaf]
  simp only [leafName, Option.bind_some, hid, hname, Option.getD_some]

theorem ofRow?_node {parents : List String} {name : String} (hname : name ≠ "") :
    ofRow? ((node t parents name).row t) = some (node t parents name) := by
  have hkind : kindAndName (SortKey.folder name) none = (.folder, name) := by
    have hfront : Text.dropFront? (SortKey.folder "") (SortKey.folder name) = some name := by
      refine Text.dropFront?_eq_some_iff.2 ?_
      simp only [SortKey.folder, String.append_empty]
    rw [kindAndName, hfront]
  have hread : readNode? (Path.folderKey t (Path.join parents)) (SortKey.folder name)
      (Path.join (parents ++ [name])) none = some (node t parents name) := by
    rw [readNode?, hkind, node]
    simp only [hname, if_false]
  exact hread

theorem ofRow?_leaf {parents : List String} {name : String} (hname : name ≠ "") :
    ofRow? ((leaf t id parents name).row t) = some (leaf t id parents name) := by
  have hread : readNode? (Path.folderKey t (Path.join parents))
      (SortKey.leaf name ++ delimiter ++ id) (Path.join (parents ++ [name])) (some id) =
        some (leaf t id parents name) := by
    rw [readNode?, kindAndName_leaf, leaf]
    simp only [hname, if_false]
  exact hread

end Folder

end Cabinet
