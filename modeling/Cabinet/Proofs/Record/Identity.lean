import Cabinet.Proofs.Record.TagPlaces

/-! What a row is for, and which rows for different things stand at one place. Main statement: live rows
at one place are for the same thing unless the sign between the parts of keys can be read in two
ways. -/

namespace Cabinet

/-- What a row is for, whatever it says about it. -/
inductive Identity where
  /-- A document's live record, or its version with a number. -/
  | document (id : String) (archived : Option UInt32)
  | tag (documentId key : String)
  | value (documentId key text : String)
  | node (kind : NodeKind) (parentKey name : String) (documentId : Option String)
  deriving DecidableEq

namespace Row

def identity (row : Row) : Identity :=
  match row.record with
  | .document d => .document d.id (if row = d.liveRow then none else some d.currentVersion)
  | .tag g => .tag g.documentId g.key
  | .attribute a => .value a.documentId a.key a.value.indexText
  | .folderNode n => .node n.kind n.parentKey n.name n.documentId

/-- The second row reads like the first: a part of its key is the sign between parts and what stands
behind it in the first. -/
inductive ReadsLike (t : Tenant) : Row → Row → Prop
  | tag {g g' : Tag} {vs : List String} {i : Nat} {row' : Row} (hvalue : g.value = .many vs)
    (hi : i < vs.length) (hid : g'.documentId = g.documentId)
    (hkey : g'.key = g.key ++ delimiter ++ Text.padded 4 i) (hvalue' : ∀ vs, g'.value ≠ .many vs)
    (hrow' : row' ∈ g'.rows t) :
    ReadsLike t ⟨g.valueKey t (Tag.numberedSort g.key i) vs[i], .tag g⟩ row'
  | value {a a' : Attribute} {part : String} (hid : a'.documentId = a.documentId)
    (hkey : a'.key = a.key ++ delimiter ++ part)
    (htext : a.value.indexText = part ++ delimiter ++ a'.value.indexText) :
    ReadsLike t (a.row t) (a'.row t)
  | leaf {id id' part : String} {parents : List String} {name name' : String}
    (hname : name' = name ++ delimiter ++ part) (hid : id = part ++ delimiter ++ id') :
    ReadsLike t ((Folder.leaf t id parents name).row t) ((Folder.leaf t id' parents name').row t)

def Collides (t : Tenant) (row row' : Row) : Prop := ReadsLike t row row' ∨ ReadsLike t row' row

variable {t : Tenant} {row row' : Row}

theorem identity_liveRow (d : Document) : d.liveRow.identity = .document d.id none := by
  simp [identity, Document.liveRow]

theorem identity_archivedRow (d : Document) :
    d.archivedRow.identity = .document d.id (some d.currentVersion) := by
  have hne : d.archivedRow ≠ d.liveRow := fun h =>
    SortKey.document_ne_version d.currentVersion (congrArg (·.address.sort) h).symm
  exact congrArg (Identity.document d.id) (if_neg hne)

theorem identity_of_mem_rows {g : Tag} (h : row ∈ g.rows t) :
    row.identity = .tag g.documentId g.key := by
  rw [identity, Tag.record_of_mem_rows h]

theorem append_delimiter_ne (s part : String) : s ++ delimiter ++ part ≠ s := by
  intro h
  have hlength := congrArg (·.toList.length) h
  simp [delimiter] at hlength

theorem ReadsLike.address_eq (h : ReadsLike t row row') : row.address = row'.address := by
  cases h with
  | @tag g g' vs i row' hvalue hi hid hkey hvalue' hrow' =>
    obtain ⟨tail, -, hplace⟩ := Tag.address_of_mem_rows hrow'
    have hsort := (Tag.place_of_mem_rows hrow').resolve_right fun ⟨vs, hmany, _⟩ => hvalue' vs hmany
    have htail : SortKey.tag g'.key ++ tail = SortKey.tag g'.key :=
      (congrArg Address.sort hplace).symm.trans hsort.2
    rw [hplace, htail, hid, hkey]
    simp only [address, Tag.valueKey, Tag.numberedSort, SortKey.tag, String.append_assoc]
  | value hid hkey htext =>
    simp only [Attribute.row, address, Attribute.rowKey, SortKey.attributeKey, hid, hkey, htext,
      String.append_assoc]
  | leaf hname hid =>
    simp only [FolderNode.row, address, FolderNode.rowKey, FolderNode.sortKey, Folder.leaf,
      SortKey.leaf, hname, hid, String.append_assoc]

theorem ReadsLike.identity_ne (h : ReadsLike t row row') : row.identity ≠ row'.identity := by
  cases h with
  | tag hvalue hi hid hkey hvalue' hrow' =>
    rw [identity_of_mem_rows hrow']
    intro he
    exact append_delimiter_ne _ _ (hkey.symm.trans (Identity.tag.inj he).2.symm)
  | value hid hkey htext =>
    intro he
    exact append_delimiter_ne _ _ (hkey.symm.trans (Identity.value.inj he).2.1.symm)
  | leaf hname hid =>
    intro he
    exact append_delimiter_ne _ _ (hname.symm.trans (Identity.node.inj he).2.2.1.symm)

theorem not_mem_padded (width n : Nat) : '#' ∉ (Text.padded width n).toList := fun h =>
  absurd (Text.isDigit_of_mem_padded h) (by decide)

theorem padded_ne (n : Nat) (part s : String) : Text.padded 4 n ≠ part ++ delimiter ++ s := by
  intro h
  refine not_mem_padded 4 n ?_
  rw [h]
  simp [delimiter]

theorem eq_or_readsLike_of_tags {g g' : Tag} (h : row ∈ g.rows t) (h' : row' ∈ g'.rows t)
    (hid : g'.documentId = g.documentId) (ha : row.address = row'.address) :
    g.key = g'.key ∨ Collides t row row' := by
  have hsort := congrArg Address.sort ha
  rcases Tag.place_of_mem_rows h with ⟨hvalue, hplace⟩ | ⟨vs, hvalue, i, hi, rfl⟩ <;>
    rcases Tag.place_of_mem_rows h' with ⟨hvalue', hplace'⟩ | ⟨vs', hvalue', j, hj, rfl⟩
  · rw [hplace, hplace', SortKey.tag, SortKey.tag, String.append_right_inj] at hsort
    exact .inl hsort
  · rw [hplace] at hsort
    simp only [address, Tag.valueKey, Tag.numberedSort, SortKey.tag, String.append_assoc,
      String.append_right_inj] at hsort
    rw [← String.append_assoc] at hsort
    exact .inr (.inr (.tag hvalue' hj hid.symm hsort hvalue h))
  · rw [hplace'] at hsort
    simp only [address, Tag.valueKey, Tag.numberedSort, SortKey.tag, String.append_assoc,
      String.append_right_inj] at hsort
    rw [← String.append_assoc] at hsort
    exact .inr (.inl (.tag hvalue hi hid hsort.symm hvalue' h'))
  · simp only [address, Tag.valueKey, Tag.numberedSort, SortKey.tag, String.append_assoc,
      String.append_right_inj] at hsort
    rw [← String.append_assoc, ← String.append_assoc] at hsort
    rcases Text.delimited_cases hsort with ⟨hkey, -⟩ | ⟨part, -, htext⟩ | ⟨part, -, htext⟩
    · exact .inl hkey
    · exact absurd htext (padded_ne i part _)
    · exact absurd htext (padded_ne j part _)

theorem eq_or_readsLike_of_values {a a' : Attribute} (ha : (a.row t).address = (a'.row t).address) :
    (a.row t).identity = (a'.row t).identity ∨ Collides t (a.row t) (a'.row t) := by
  obtain ⟨hp, hs⟩ := Address.mk.inj ha
  have hid : a.documentId = a'.documentId := Partition.document_injective hp
  rw [SortKey.attributeKey, SortKey.attributeKey, String.append_assoc, String.append_assoc,
    String.append_assoc, String.append_assoc, String.append_right_inj, ← String.append_assoc,
    ← String.append_assoc] at hs
  rcases Text.delimited_cases hs with ⟨hkey, htext⟩ | ⟨part, hkey, htext⟩ | ⟨part, hkey, htext⟩
  · refine .inl ?_
    simp only [identity, Attribute.row, hid, hkey, htext]
  · exact .inr (.inl (.value hid.symm hkey htext))
  · exact .inr (.inr (.value hid hkey htext))

theorem eq_or_readsLike_of_leaves {id id' : String} {parents : List String} {name name' : String}
    (hs : SortKey.leaf name ++ delimiter ++ id = SortKey.leaf name' ++ delimiter ++ id') :
    let row := (Folder.leaf t id parents name).row t
    let row' := (Folder.leaf t id' parents name').row t
    row.identity = row'.identity ∨ Collides t row row' := by
  rw [SortKey.leaf, SortKey.leaf, String.append_assoc, String.append_assoc,
    String.append_assoc, String.append_assoc, String.append_right_inj, ← String.append_assoc,
    ← String.append_assoc] at hs
  rcases Text.delimited_cases hs with ⟨rfl, rfl⟩ | ⟨part, hname, hid⟩ | ⟨part, hname, hid⟩
  · exact .inl rfl
  · exact .inr (.inl (.leaf hname hid))
  · exact .inr (.inr (.leaf hname hid))

theorem IsLive.eq_archivedRow (h : row.IsLive t) {id : String} {n : UInt32}
    (ha : row.address = ⟨Partition.document t id, SortKey.version n⟩) :
    ∃ d : Document, d.id = id ∧ d.currentVersion = n ∧ row = d.archivedRow := by
  obtain ⟨hp, hs⟩ := Address.mk.inj ha
  have hfront : Text.beginsWith SortKey.document row.address.sort := by
    have hversion : SortKey.versionFront = SortKey.document ++ "#v" := by decide
    rw [ha, SortKey.version, hversion, String.append_assoc]
    exact Text.beginsWith_append _ _
  have hdocument := (h.isSome_document?_iff hp).2 hfront
  cases h with
  | document d h => exact absurd hs (SortKey.document_ne_version n)
  | version d h =>
    subst h
    exact ⟨d, Partition.document_injective hp, SortKey.version_injective hs, rfl⟩
  | tag g hrow =>
    rw [document?, Tag.record_of_mem_rows hrow] at hdocument
    cases hdocument
  | value a => cases hdocument
  | folder parents name h => cases hdocument
  | leaf id parents name h => cases hdocument

theorem IsLive.exists_leaf (h : row.IsLive t) {id : String} {parents : List String} {name : String}
    (hnames : ∀ s ∈ parents ++ [name], Path.IsName s)
    (ha : row.address = ((Folder.leaf t id parents name).row t).address) :
    ∃ id' name', row = (Folder.leaf t id' parents name').row t := by
  have hp : row.address.partition = Path.folderKey t (Path.join parents) :=
    congrArg Address.partition ha
  have hs : row.address.sort = SortKey.leaf name ++ delimiter ++ id := congrArg Address.sort ha
  rcases h.place with ⟨id', hid⟩ | ⟨parents', name', -, rfl⟩ | ⟨id', parents', name', hnames', rfl⟩
  · exact absurd (hid.symm.trans hp) Partition.document_ne_folderKey
  · have hfront : "ff#" ++ name' = "fi#" ++ (name ++ delimiter ++ id) := by
      rw [← String.append_assoc, ← String.append_assoc]
      exact hs
    exact absurd hfront (Text.append_ne_append (by decide) (by decide) _ _)
  · have hparents : parents' = parents :=
      Path.folderKey_join_injective (fun s hs => hnames' s (List.mem_append_left _ hs))
        (fun s hs => hnames s (List.mem_append_left _ hs)) hp
    exact ⟨id', name', by rw [hparents]⟩

/-- Live rows at one place are for the same thing, or the sign between the parts of their keys can be
read in two ways. -/
theorem IsLive.collides_iff (h : row.IsLive t) (h' : row'.IsLive t) :
    Collides t row row' ↔ row.address = row'.address ∧ row.identity ≠ row'.identity := by
  constructor
  · rintro (hlike | hlike)
    · exact ⟨hlike.address_eq, hlike.identity_ne⟩
    · exact ⟨hlike.address_eq.symm, hlike.identity_ne.symm⟩
  · rintro ⟨ha, hne⟩
    refine Or.resolve_left ?_ hne
    cases h with
    | document d h =>
      obtain ⟨d', -, hid, rfl⟩ := h'.eq_liveRow (ha.symm.trans (Document.address_liveRow h))
      rw [identity_liveRow, identity_liveRow, hid]
      exact .inl rfl
    | version d h =>
      subst h
      obtain ⟨d', hid, hnumber, rfl⟩ := h'.eq_archivedRow ha.symm
      rw [identity_archivedRow, identity_archivedRow, hid, hnumber]
      exact .inl rfl
    | tag g hrow =>
      obtain ⟨g', hrow', hid⟩ := h'.exists_tagRow hrow ha.symm
      refine (eq_or_readsLike_of_tags hrow hrow' hid ha).imp_left fun hkey => ?_
      rw [identity_of_mem_rows hrow, identity_of_mem_rows hrow', hid, hkey]
    | value a =>
      obtain ⟨a', rfl, -⟩ := h'.exists_attributeRow ha.symm
      exact eq_or_readsLike_of_values ha
    | folder parents name hnames =>
      rw [h'.eq_folder hnames ha.symm]
      exact .inl rfl
    | leaf id parents name hnames =>
      obtain ⟨id', name', rfl⟩ := h'.exists_leaf hnames ha.symm
      exact eq_or_readsLike_of_leaves (congrArg Address.sort ha)

end Row

end Cabinet
