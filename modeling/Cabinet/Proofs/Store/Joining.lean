import Cabinet.Proofs.Criteria.Expansion
import Cabinet.Proofs.Store.Values

/-! Composite attributes and how requests refresh them. Main statements: refreshing a group leaves
its values those of its keys, joined in every combination, and what a request can make of the values
of one document as far as a group is concerned. -/

namespace Cabinet

namespace Attribute

variable {group : List String} {texts texts' : String → List String} {v : String}

def joined (components : List (List String)) : List String :=
  (combinations components).map (Text.joinWith compositeDelimiter)

theorem ne_nil_of_mem_combinations {components : List (List String)} {values : List String}
    (h : values ∈ combinations components) : ∀ vs ∈ components, vs ≠ [] := by
  rw [mem_combinations] at h
  induction h with
  | nil => simp
  | cons hv _ ih => exact List.forall_mem_cons.2 ⟨List.ne_nil_of_mem hv, ih⟩

theorem mem_joined : v ∈ joined (group.map texts) ↔ ∃ values,
    List.Forall₂ (fun key w => w ∈ texts key) group values ∧
      Text.joinWith compositeDelimiter values = v := by
  unfold joined
  rw [List.mem_map]
  exact exists_congr fun values => by rw [mem_combinations, List.forall₂_map_left_iff]

theorem joined_mono (h : ∀ key ∈ group, ∀ w ∈ texts key, w ∈ texts' key)
    (hv : v ∈ joined (group.map texts)) : v ∈ joined (group.map texts') := by
  rw [mem_joined] at hv ⊢
  obtain ⟨values, hvalues, rfl⟩ := hv
  refine ⟨values, ?_, rfl⟩
  induction hvalues with
  | nil => exact .nil
  | cons hw _ ih =>
    obtain ⟨hkey, hkeys⟩ := List.forall_mem_cons.1 h
    exact .cons (hkey _ hw) (ih hkeys)

theorem joined_congr (h : ∀ key ∈ group, ∀ w, w ∈ texts' key ↔ w ∈ texts key) :
    v ∈ joined (group.map texts') ↔ v ∈ joined (group.map texts) :=
  ⟨joined_mono fun key hkey w => (h key hkey w).1, joined_mono fun key hkey w => (h key hkey w).2⟩

/-- The values under the name of a group are those of its keys, joined in every combination. -/
def Mirrors (group : List String) (texts : String → List String) : Prop :=
  ∀ v, v ∈ texts (compositeName group) ↔ v ∈ joined (group.map texts)

instance (group : List String) (texts : String → List String) : Decidable (Mirrors group texts) :=
  decidable_of_iff ((∀ v ∈ texts (compositeName group), v ∈ joined (group.map texts)) ∧
    ∀ v ∈ joined (group.map texts), v ∈ texts (compositeName group))
    ⟨fun h v => ⟨h.1 v, h.2 v⟩, fun h => ⟨fun v => (h v).1, fun v => (h v).2⟩⟩

theorem mirrors_congr
    (h : ∀ key ∈ compositeName group :: group, ∀ v, v ∈ texts' key ↔ v ∈ texts key) :
    Mirrors group texts' ↔ Mirrors group texts := by
  obtain ⟨hname, hkeys⟩ := List.forall_mem_cons.1 h
  exact forall_congr' fun v => iff_congr (hname v) (joined_congr hkeys)

theorem mirrors_of_forall_nil (hgroup : group ≠ []) (h : ∀ key, texts key = []) :
    Mirrors group texts := by
  intro v
  rw [h, iff_false_left List.not_mem_nil, mem_joined]
  rintro ⟨values, hvalues, -⟩
  cases hvalues with
  | nil => exact hgroup rfl
  | cons hw _ =>
    rw [h] at hw
    cases hw

end Attribute

theorem Config.ne_nil_of_mem {c : Config} (h : c.Valid) {group : List String}
    (hgroup : group ∈ c.compositeKeys) : group ≠ [] := by
  rintro rfl
  exact absurd (two_le_length h hgroup) (by decide)

theorem Config.nodup_of_mem {c : Config} (h : c.Valid) {group : List String}
    (hgroup : group ∈ c.compositeKeys) : group.Nodup := by
  have hfault := groupFault?_eq_none_of_mem h hgroup
  unfold groupFault? at hfault
  split_ifs at hfault with hshort hblank hnodup
  exact hnodup

/-- A group whose name is that of no other group, and whose keys are no names of groups. -/
structure Config.IsApart (c : Config) (group : List String) : Prop where
  name : ∀ g ∈ c.compositeKeys,
    Attribute.compositeName g = Attribute.compositeName group → g = group
  keys : ∀ g ∈ c.compositeKeys, Attribute.compositeName g ∉ group

namespace Table

open Attribute

variable {t : Tenant} {T T' : Table} {c : Config} {id m key k v : String} {group : List String}
  {groups : List (List String)} {a : Attribute}

theorem texts_compositesOf (T : Table) (t : Tenant) (id : String) (hgroup : group ≠ []) :
    (T.compositesOf t id group).map (·.value.indexText) =
      joined (group.map (T.indexTexts t id)) := by
  unfold compositesOf
  simp only
  cases howner : (group.map (T.attributesOf t id)).findSome? List.head? with
  | none =>
    -- no component has a value, so there is no choice
    obtain ⟨key, keys, rfl⟩ := List.exists_cons_of_ne_nil hgroup
    have hnone := List.findSome?_eq_none_iff.1 howner _ List.mem_cons_self
    have hnil : T.indexTexts t id key = [] := by
      rw [indexTexts, List.head?_eq_none_iff.1 hnone, List.map_nil]
    symm
    simp only [List.map_nil, List.eq_nil_iff_forall_not_mem, mem_joined]
    rintro v ⟨values, hvalues, -⟩
    cases hvalues with
    | cons hw _ =>
      rw [hnil] at hw
      cases hw
  | some owner =>
    simp only [List.map_map, joined]
    rfl

theorem isPlain_of_mem_attributesOf (h : T.AttributesHave IsPlain)
    (ha : a ∈ T.attributesOf t id key) : '#' ∉ key.toList := by
  obtain ⟨row, hrow, hattribute⟩ := List.mem_filterMap.1 ha
  obtain ⟨hfrom, hkey⟩ := List.mem_filter.1 hrow
  rw [hattribute, Option.any_some, decide_eq_true_iff] at hkey
  rw [← hkey]
  exact h row (mem_rowsFrom.1 hfrom).1 a (Row.record_of_attribute? hattribute)

theorem isPlain_of_mem_compositesOf (h : T.AttributesHave IsPlain)
    (ha : a ∈ T.compositesOf t id group) : a.IsPlain := by
  obtain ⟨values, hvalues, userId, inserted, rfl⟩ := exists_of_mem_compositesOf ha
  refine Text.not_mem_joinWith (by decide) fun key hkey => ?_
  have hne := ne_nil_of_mem_combinations hvalues _ (List.mem_map_of_mem hkey)
  obtain ⟨b, hb⟩ : ∃ b, b ∈ T.attributesOf t id key := by
    refine List.exists_mem_of_ne_nil _ fun hnil => hne ?_
    rw [hnil, List.map_nil]
  exact isPlain_of_mem_attributesOf h hb

theorem areFor_compositesOf (h : T.AttributesHave IsPlain) (group : List String) :
    AreFor id (compositeName group) (T.compositesOf t id group) := by
  refine fun a ha => ⟨documentId_of_mem_compositesOf ha, ?_, isPlain_of_mem_compositesOf h ha⟩
  obtain ⟨values, -, userId, inserted, rfl⟩ := exists_of_mem_compositesOf ha
  rfl

theorem areFor_nil (id key : String) : AreFor id key [] := nofun

theorem refreshGroup_eq (T : Table) (t : Tenant) (id : String) (group : List String) :
    T.refreshGroup t id group = T.setAttribute t id (compositeName group)
      ((T.setAttribute t id (compositeName group) []).compositesOf t id group) := rfl

theorem Legible.refreshGroup (h : T.Legible t) (id : String) (group : List String) :
    (T.refreshGroup t id group).Legible t := by
  rw [refreshGroup_eq]
  exact h.setAttribute (areFor_compositesOf (h.setAttribute (areFor_nil id _)).plain group)

theorem mem_attributesOf_refreshGroup_of_ne (h : T.Legible t)
    (hne : ¬(m = id ∧ k = compositeName group)) :
    a ∈ (T.refreshGroup t id group).attributesOf t m k ↔ a ∈ T.attributesOf t m k := by
  have hvalues : AreFor id (compositeName group)
      ((T.setAttribute t id (compositeName group) []).compositesOf t id group) :=
    areFor_compositesOf (h.setAttribute (areFor_nil id _)).plain group
  rw [refreshGroup_eq, mem_attributesOf_setAttribute h hvalues, if_neg hne]

theorem mem_indexTexts_congr (hsame : ∀ a, a ∈ T'.attributesOf t m k ↔ a ∈ T.attributesOf t m k) :
    v ∈ T'.indexTexts t m k ↔ v ∈ T.indexTexts t m k := by
  unfold indexTexts
  simp only [List.mem_map, hsame]

theorem mem_indexTexts_refreshGroup_of_ne (h : T.Legible t)
    (hne : ¬(m = id ∧ k = compositeName group)) :
    v ∈ (T.refreshGroup t id group).indexTexts t m k ↔ v ∈ T.indexTexts t m k :=
  mem_indexTexts_congr fun _ => mem_attributesOf_refreshGroup_of_ne h hne

theorem mirrors_refreshGroup (h : T.Legible t) (hgroup : group ≠ [])
    (hname : compositeName group ∉ group) :
    Mirrors group ((T.refreshGroup t id group).indexTexts t id) := by
  have hvalues : AreFor id (compositeName group)
      ((T.setAttribute t id (compositeName group) []).compositesOf t id group) :=
    areFor_compositesOf (h.setAttribute (areFor_nil id _)).plain group
  intro v
  -- the components are the same before and after
  have hsame : ∀ key ∈ group, ∀ w, w ∈ (T.refreshGroup t id group).indexTexts t id key ↔
      w ∈ (T.setAttribute t id (compositeName group) []).indexTexts t id key := by
    intro key hkey w
    have hne : ¬(id = id ∧ key = compositeName group) := fun he => hname (he.2 ▸ hkey)
    rw [mem_indexTexts_refreshGroup_of_ne h hne,
      mem_indexTexts_setAttribute_of_ne h (areFor_nil id _) hne]
  rw [joined_congr hsame, refreshGroup_eq, mem_indexTexts_setAttribute h hvalues,
    if_pos ⟨rfl, rfl⟩, texts_compositesOf _ t id hgroup]

theorem Legible.refreshGroups (h : T.Legible t) (id : String) (groups : List (List String)) :
    (groups.foldl (fun T group => T.refreshGroup t id group) T).Legible t :=
  List.foldlRecOn groups _ h fun _ hT group _ => hT.refreshGroup id group

theorem mem_attributesOf_refreshGroups_of_ne (h : T.Legible t)
    (hne : ∀ g ∈ groups, ¬(m = id ∧ k = compositeName g)) :
    a ∈ (groups.foldl (fun T group => T.refreshGroup t id group) T).attributesOf t m k ↔
      a ∈ T.attributesOf t m k := by
  induction groups generalizing T with
  | nil => rfl
  | cons g groups ih =>
    obtain ⟨hg, hgroups⟩ := List.forall_mem_cons.1 hne
    refine (ih (h.refreshGroup id g) hgroups).trans ?_
    exact mem_attributesOf_refreshGroup_of_ne h hg

theorem mem_indexTexts_refreshGroups_of_ne (h : T.Legible t)
    (hne : ∀ g ∈ groups, ¬(m = id ∧ k = compositeName g)) :
    v ∈ (groups.foldl (fun T group => T.refreshGroup t id group) T).indexTexts t m k ↔
      v ∈ T.indexTexts t m k :=
  mem_indexTexts_congr fun _ => mem_attributesOf_refreshGroups_of_ne h hne

/-- A group stays up to date when others are refreshed after it. -/
theorem mirrors_refreshGroups (h : T.Legible t) (hapart : c.IsApart group) (hgroup : group ≠ [])
    (hgroups : ∀ g ∈ groups, g ∈ c.compositeKeys) (hmem : group ∈ groups) :
    Mirrors group ((groups.foldl (fun T group => T.refreshGroup t id group) T).indexTexts t id) := by
  induction groups generalizing T with
  | nil => cases hmem
  | cons g groups ih =>
    obtain ⟨hg, hrest⟩ := List.forall_mem_cons.1 hgroups
    by_cases hlater : group ∈ groups
    · exact ih (h.refreshGroup id g) hrest hlater
    · obtain rfl : group = g := (List.mem_cons.1 hmem).resolve_right hlater
      have hfirst : Mirrors group ((T.refreshGroup t id group).indexTexts t id) :=
        mirrors_refreshGroup h hgroup (hapart.keys group hg)
      refine (mirrors_congr fun key hkey v => ?_).2 hfirst
      refine mem_indexTexts_refreshGroups_of_ne (h.refreshGroup id group) fun g hg' he => ?_
      rcases List.mem_cons.1 hkey with rfl | hkey
      · exact hlater (hapart.name g (hrest g hg') he.2.symm ▸ hg')
      · exact hapart.keys g (hrest g hg') (he.2 ▸ hkey)

theorem mirrors_refreshComposites (h : T.Legible t) (hapart : c.IsApart group)
    (hgroup : group ∈ c.compositeKeys) {keys : List String} (hkey : key ∈ keys)
    (hin : key ∈ group) : Mirrors group ((T.refreshComposites c t id keys).indexTexts t id) := by
  refine mirrors_refreshGroups h hapart (List.ne_nil_of_mem hin) (fun g hg => ?_) ?_
  · obtain ⟨_, -, hg⟩ := List.mem_flatMap.1 (mem_firsts.1 hg)
    exact (List.mem_filter.1 hg).1
  · refine mem_firsts.2 (List.mem_flatMap.2 ⟨key, hkey, List.mem_filter.2 ⟨hgroup, ?_⟩⟩)
    exact decide_eq_true hin

theorem mem_indexTexts_refreshComposites_of_ne (h : T.Legible t) (hapart : c.IsApart group)
    {keys : List String} (hne : m = id → ∀ key ∈ keys, key ∉ group)
    (hk : k ∈ compositeName group :: group) :
    v ∈ (T.refreshComposites c t id keys).indexTexts t m k ↔ v ∈ T.indexTexts t m k := by
  refine mem_indexTexts_refreshGroups_of_ne h fun g hg => ?_
  obtain ⟨key, hkey, hg⟩ := List.mem_flatMap.1 (mem_firsts.1 hg)
  obtain ⟨hg, hin⟩ := List.mem_filter.1 hg
  rintro ⟨hm, rfl⟩
  rcases List.mem_cons.1 hk with hname | hk
  · exact hne hm key hkey (hapart.name g hg hname ▸ of_decide_eq_true hin)
  · exact hapart.keys g hg hk

/-- What a request can make of the values of one document, as far as a group is concerned. -/
inductive ValueStep (t : Tenant) (group : List String) (T T' : Table) (m : String) :
    Operation → Prop
  | same {op : Operation}
    (live : ∀ key ∈ compositeName group :: group, ∀ v,
      v ∈ T'.indexTexts t m key ↔ v ∈ T.indexTexts t m key)
    (deleted : ∀ key v, v ∈ T'.deletedTexts t m key ↔ v ∈ T.deletedTexts t m key) :
    ValueStep t group T T' m op
  /-- The composite values are made anew. -/
  | rebuilt {op : Operation} (live : Mirrors group (T'.indexTexts t m))
    (deleted : ∀ key v, v ∈ T'.deletedTexts t m key ↔ v ∈ T.deletedTexts t m key) :
    ValueStep t group T T' m op
  /-- The composite values are deleted by their own name. -/
  | unnamed (live : ∀ key ∈ group, ∀ v, v ∈ T'.indexTexts t m key ↔ v ∈ T.indexTexts t m key)
    (none : T'.indexTexts t m (compositeName group) = [])
    (deleted : ∀ key v, v ∈ T'.deletedTexts t m key ↔ v ∈ T.deletedTexts t m key) :
    ValueStep t group T T' m (.deleteAttribute m (compositeName group))
  | removed {id : String} {soft : Bool} (live : ∀ key, T'.indexTexts t m key = [])
    (deleted : ∀ key v, v ∈ T'.deletedTexts t m key ↔
      v ∈ T.deletedTexts t m key ∨ soft ∧ v ∈ T.indexTexts t m key) :
    ValueStep t group T T' m (.deleteDocument id soft)
  | restored {id : String} (hroot : T.document? t id = none) (hm : m ∈ T.deletedFamily t id)
    (live : ∀ key v, v ∈ T'.indexTexts t m key ↔
      v ∈ T.indexTexts t m key ∨ v ∈ T.deletedTexts t m key)
    (deleted : ∀ key, T'.deletedTexts t m key = []) :
    ValueStep t group T T' m (.restoreDocument id)

theorem SameValues.valueStep (h : T.SameValues t T' m) (op : Operation) :
    ValueStep t group T T' m op :=
  .same (fun key _ => h.live key) h.deleted

theorem Legible.refreshComposites (h : T.Legible t) (c : Config) (id : String)
    (keys : List String) : (T.refreshComposites c t id keys).Legible t :=
  h.refreshGroups id _

theorem Legible.setAttributes (h : T.Legible t) {attributes : List Attribute}
    (hnew : ∀ a ∈ attributes, a.documentId = id ∧ a.IsPlain) :
    (T.setAttributes t id attributes).Legible t where
  keeps := h.keeps.of_edits (fun _ hrow => hrow.1.isFiled)
    (edits_setAttributes (fun a ha => (hnew a ha).1) h.keeps)
  plain := h.plain.setAttributes fun a ha => (hnew a ha).2

theorem Edits.mem_deletedTexts_of_metadata (he : T.Edits (Row.IsMetadataOf t id) T')
    (h : T.Keeps t) : v ∈ T'.deletedTexts t m key ↔ v ∈ T.deletedTexts t m key :=
  he.mem_deletedTexts_iff (fun _ hrow => hrow.1) h

theorem valueStep_attributesSet (h : T.Legible t) (hc : c.Valid) (hapart : c.IsApart group)
    (hgroup : group ∈ c.compositeKeys) {attributes : List Attribute}
    (hissues : ∀ a ∈ attributes, a.issues = []) (hnew : ∀ a ∈ attributes, a.IsPlain)
    (op : Operation) : ValueStep t group T (T.attributesSet c t id attributes) m op := by
  have hedits : T.Edits (Row.IsMetadataOf t id) (T.attributesSet c t id attributes) :=
    (edits_attributesSet h.keeps c attributes).metadata
  have hdeleted (key v : String) : v ∈ (T.attributesSet c t id attributes).deletedTexts t m key ↔
      v ∈ T.deletedTexts t m key := hedits.mem_deletedTexts_of_metadata h.keeps
  unfold attributesSet at hdeleted ⊢
  have hmine : ∀ a ∈ attributes.map fun a => { a with documentId := id },
      (a.documentId = id ∧ a.IsPlain) ∧ a.key ≠ compositeName group := by
    intro a ha
    obtain ⟨b, hb, rfl⟩ := List.mem_map.1 ha
    refine ⟨⟨rfl, hnew b hb⟩, fun hkey => ?_⟩
    have hnone := (not_isComposite_of_issues (hissues b hb)).1
    rw [hkey, mentions_compositeName (Config.two_le_length hc hgroup)] at hnone
    cases hnone
  generalize (attributes.map fun a => { a with documentId := id }) = set at hmine hdeleted ⊢
  have hset := h.setAttributes fun a ha => (hmine a ha).1
  by_cases htouched : m = id ∧ ∃ key ∈ attributeKeys set, key ∈ group
  · obtain ⟨rfl, key, hkey, hin⟩ := htouched
    exact .rebuilt (mirrors_refreshComposites hset hapart hgroup hkey hin) hdeleted
  · have hne : m = id → ∀ key ∈ attributeKeys set, key ∉ group := fun hm key hkey hin =>
      htouched ⟨hm, key, hkey, hin⟩
    refine .same (fun key hkey v => ?_) hdeleted
    rw [mem_indexTexts_refreshComposites_of_ne hset hapart hne hkey,
      mem_indexTexts_setAttributes h fun a ha => (hmine a ha).1, if_neg]
    -- neither the keys of the group nor its name are set
    rintro ⟨hm, hmem⟩
    rcases List.mem_cons.1 hkey with rfl | hkey
    · obtain ⟨a, ha, hname⟩ := List.mem_map.1 (mem_distinct.1 hmem)
      exact (hmine a ha).2 hname
    · exact hne hm key hmem hkey

theorem values_attributesSet (h : T.Legible t) (hapart : c.IsApart group)
    (hgroup : group ∈ c.compositeKeys) (hne : group ≠ []) {attributes : List Attribute}
    (hnew : ∀ a ∈ attributes, a.IsPlain) (hkeys : ∀ key ∈ group, ∃ a ∈ attributes, a.key = key)
    (id : String) : Mirrors group ((T.attributesSet c t id attributes).indexTexts t id) ∧
      ∀ key ∈ group, ∀ v, v ∈ (T.attributesSet c t id attributes).indexTexts t id key ↔
        ∃ a ∈ attributes, a.key = key ∧ a.value.indexText = v := by
  have hmine : ∀ a ∈ attributes.map fun a => { a with documentId := id },
      a.documentId = id ∧ a.IsPlain := by
    intro a ha
    obtain ⟨b, hb, rfl⟩ := List.mem_map.1 ha
    exact ⟨rfl, hnew b hb⟩
  have hset := h.setAttributes hmine
  have hmem {key : String} (hkey : key ∈ group) :
      key ∈ attributeKeys (attributes.map fun a => { a with documentId := id }) := by
    obtain ⟨a, ha, rfl⟩ := hkeys key hkey
    exact mem_distinct.2 (List.mem_map.2 ⟨_, List.mem_map_of_mem ha, rfl⟩)
  obtain ⟨key, hkey⟩ := List.exists_mem_of_ne_nil _ hne
  refine ⟨mirrors_refreshComposites hset hapart hgroup (hmem hkey) hkey, fun key hkey v => ?_⟩
  have hrefresh : v ∈ (T.attributesSet c t id attributes).indexTexts t id key ↔ _ :=
    mem_indexTexts_refreshGroups_of_ne hset fun g hg he => by
      obtain ⟨_, -, hg⟩ := List.mem_flatMap.1 (mem_firsts.1 hg)
      exact hapart.keys g (List.mem_filter.1 hg).1 (he.2 ▸ hkey)
  rw [hrefresh, mem_indexTexts_setAttributes h hmine, if_pos ⟨rfl, hmem hkey⟩]
  simp [List.filter_map, and_assoc]

theorem attributeDeleted_eq (T : Table) (c : Config) (t : Tenant) (id key : String) :
    T.attributeDeleted c t id key = if T.attributeRows t id key ≠ [] then
      (T.setAttribute t id key []).refreshComposites c t id [key] else T := by
  unfold attributeDeleted
  simp only
  split
  · rfl
  · rename_i hnil
    rw [not_not.1 hnil]
    rfl

theorem attributeDeleted_name (h : T.Legible t) (hapart : c.IsApart group)
    (hgroup : group ∈ c.compositeKeys) (id : String) :
    (∀ key ∈ group, ∀ v, v ∈ (T.attributeDeleted c t id (compositeName group)).indexTexts t id key ↔
      v ∈ T.indexTexts t id key) ∧
        (T.attributeDeleted c t id (compositeName group)).indexTexts t id (compositeName group) =
          [] := by
  have hname : compositeName group ∉ group := hapart.keys group hgroup
  rw [attributeDeleted_eq]
  split
  · have hset := h.setAttribute (areFor_nil id (compositeName group))
    have hne : id = id → ∀ k ∈ [compositeName group], k ∉ group := by simpa using hname
    have hlive {k v : String} (hk : k ∈ compositeName group :: group) :=
      (mem_indexTexts_refreshComposites_of_ne (v := v) hset hapart hne hk).trans
        (mem_indexTexts_setAttribute h (areFor_nil id (compositeName group)))
    constructor
    · intro k hk v
      rw [hlive (List.mem_cons_of_mem _ hk), if_neg]
      rintro ⟨-, rfl⟩
      exact hname hk
    · refine List.eq_nil_iff_forall_not_mem.2 fun v hv => ?_
      rw [hlive List.mem_cons_self, if_pos ⟨rfl, rfl⟩] at hv
      cases hv
  · rename_i hnil
    refine ⟨fun _ _ _ => Iff.rfl, ?_⟩
    rw [indexTexts, attributesOf, not_not.1 hnil]
    rfl

theorem valueStep_attributeDeleted (h : T.Legible t) (hapart : c.IsApart group)
    (hgroup : group ∈ c.compositeKeys) :
    ValueStep t group T (T.attributeDeleted c t id key) m (.deleteAttribute id key) := by
  have hedits : T.Edits (Row.IsMetadataOf t id) (T.attributeDeleted c t id key) :=
    (edits_attributeDeleted h.keeps c).metadata
  have hdeleted (k v : String) : v ∈ (T.attributeDeleted c t id key).deletedTexts t m k ↔
      v ∈ T.deletedTexts t m k := hedits.mem_deletedTexts_of_metadata h.keeps
  by_cases hname : m = id ∧ key = compositeName group
  · obtain ⟨rfl, rfl⟩ := hname
    obtain ⟨hkeys, hnone⟩ := attributeDeleted_name h hapart hgroup m
    exact .unnamed hkeys hnone hdeleted
  rw [attributeDeleted_eq] at hdeleted ⊢
  split
  · rename_i hrows
    rw [if_pos hrows] at hdeleted
    have hset := h.setAttribute (areFor_nil id key)
    by_cases htouched : m = id ∧ key ∈ group
    · obtain ⟨rfl, hin⟩ := htouched
      exact .rebuilt (mirrors_refreshComposites hset hapart hgroup List.mem_cons_self hin) hdeleted
    · have hne : m = id → ∀ k ∈ [key], k ∉ group := by
        intro hm k hk hin
        rw [List.mem_singleton.1 hk] at hin
        exact htouched ⟨hm, hin⟩
      refine .same (fun k hk v => ?_) hdeleted
      rw [mem_indexTexts_refreshComposites_of_ne hset hapart hne hk,
        mem_indexTexts_setAttribute h (areFor_nil id key), if_neg]
      rintro ⟨hm, rfl⟩
      rcases List.mem_cons.1 hk with hk | hk
      · exact hname ⟨hm, hk⟩
      · exact htouched ⟨hm, hk⟩
  · exact .same (fun _ _ _ => Iff.rfl) fun _ _ => Iff.rfl

theorem valueStep_remove (h : T.Legible t) (id : String) (soft : Bool) :
    ValueStep t group T (T.remove t soft (T.family t id)) m (.deleteDocument id soft) := by
  have hnodup := nodup_family t T id
  by_cases hm : m ∈ T.family t id
  · refine .removed (fun key => ?_) fun key v => ?_
    · refine List.eq_nil_iff_forall_not_mem.2 fun v hv => ?_
      exact ((mem_indexTexts_remove h.keeps hnodup).1 hv).1 hm
    · cases soft with
      | false => simp [mem_deletedTexts_hardRemove h.keeps hnodup]
      | true => simp [mem_deletedTexts_softRemove h hnodup, hm]
  · refine .same (fun key _ v => ?_) fun key v => ?_
    · simp [mem_indexTexts_remove h.keeps hnodup, hm]
    · cases soft with
      | false => exact mem_deletedTexts_hardRemove h.keeps hnodup
      | true => simp [mem_deletedTexts_softRemove h hnodup, hm]

end Table

namespace Operation

open Attribute

variable {t : Tenant} {T : Table} {c : Config} {group : List String} {id m k v : String}
  {op : Operation}

def SetsPlain : Operation → Prop
  | setAttributes _ attributes => ∀ a ∈ attributes, a.IsPlain
  | _ => True

theorem mem_indexTexts_restoreDocument (h : T.Legible t) (hroot : T.document? t id = none) :
    v ∈ ((restoreDocument id).effect c t T).indexTexts t m k ↔
      v ∈ T.indexTexts t m k ∨ m ∈ T.deletedFamily t id ∧ v ∈ T.deletedTexts t m k := by
  obtain ⟨lives, hrestores, hmoves⟩ := Table.exists_restores h.keeps id
  simp only [effect, hmoves, hroot, Option.isSome_none, Bool.false_eq_true, false_or]
  split
  · rename_i hnil
    refine (or_iff_left ?_).symm
    rintro ⟨hm, hv⟩
    obtain ⟨a, ha, rfl, -⟩ := (Table.mem_deletedTexts h.keeps).1 hv
    have hrow := (Table.mem_restorable_of_partition h.keeps ha rfl).2 hm
    rw [hnil] at hrow
    cases hrow
  · exact ((hrestores.sameValues_broughtBack h.keeps _).live k v).trans
      (hrestores.mem_indexTexts h)

theorem mem_deletedTexts_restoreDocument (h : T.Legible t) (hroot : T.document? t id = none) :
    v ∈ ((restoreDocument id).effect c t T).deletedTexts t m k ↔
      v ∈ T.deletedTexts t m k ∧ m ∉ T.deletedFamily t id := by
  obtain ⟨lives, hrestores, hmoves⟩ := Table.exists_restores h.keeps id
  simp only [effect, hmoves, hroot, Option.isSome_none, Bool.false_eq_true, false_or]
  split
  · rename_i hnil
    refine (and_iff_left_of_imp fun hv hm => ?_).symm
    obtain ⟨a, ha, rfl, -⟩ := (Table.mem_deletedTexts h.keeps).1 hv
    have hrow := (Table.mem_restorable_of_partition h.keeps ha rfl).2 hm
    rw [hnil] at hrow
    cases hrow
  · exact ((hrestores.sameValues_broughtBack h.keeps _).deleted k v).trans
      (hrestores.mem_deletedTexts h.keeps)

theorem valueStep_restoreDocument (h : T.Legible t) : Table.ValueStep t group T
    ((restoreDocument id).effect c t T) m (restoreDocument id) := by
  cases hroot : T.document? t id with
  | some d =>
    have heffect : (restoreDocument id).effect c t T = T := by simp [effect, hroot]
    rw [heffect]
    exact (Table.SameValues.refl t T m).valueStep _
  | none =>
    by_cases hm : m ∈ T.deletedFamily t id
    · refine .restored hroot hm (fun key v => ?_) fun key => ?_
      · rw [mem_indexTexts_restoreDocument h hroot, and_iff_right hm]
      · refine List.eq_nil_iff_forall_not_mem.2 fun v hv => ?_
        exact ((mem_deletedTexts_restoreDocument h hroot).1 hv).2 hm
    · refine .same (fun key _ v => ?_) fun key v => ?_
      · simp [mem_indexTexts_restoreDocument h hroot, hm]
      · simp [mem_deletedTexts_restoreDocument h hroot, hm]

theorem valueStep_effect (h : T.Legible t) (hc : c.Valid) (hapart : c.IsApart group)
    (hgroup : group ∈ c.compositeKeys) (op : Operation) (hplain : op.SetsPlain) (m : String) :
    Table.ValueStep t group T (op.effect c t T) m op := by
  have same : Table.ValueStep t group T T m op := (Table.SameValues.refl t T m).valueStep op
  cases op with
  | saveDocument d =>
    simp only [effect]
    split
    · exact same
    · exact (Table.sameValues_saved h.keeps d).valueStep _
  | deleteDocument id soft =>
    simp only [effect]
    split
    · exact same
    · exact Table.valueStep_remove h id soft
  | restoreDocument id => exact valueStep_restoreDocument h
  | addTags id tags =>
    simp only [effect]
    split
    · exact same
    · exact ((Table.edits_setTags h.keeps tags).sameValues_of_tags h.keeps).valueStep _
  | deleteTag id key =>
    exact ((Table.edits_eraseTagRows h.keeps).sameValues_of_tags h.keeps).valueStep _
  | setAttributes id attributes =>
    simp only [effect]
    split
    · exact same
    · rename_i hfault
      have hissues := issues_of_metadataFault? (Option.not_isSome_iff_eq_none.1 hfault)
      exact Table.valueStep_attributesSet h hc hapart hgroup
        (List.flatMap_eq_nil_iff.1 hissues) hplain _
  | deleteAttribute id key => exact Table.valueStep_attributeDeleted h hapart hgroup
  | deleteEmptyFolder path =>
    simp only [effect]
    split
    · rename_i hempty
      exact ((Table.edits_emptyFolder h.keeps hempty).sameValues_of_nodes h.keeps).valueStep _
    · exact same
  | findDocument | findDocuments | findDocumentVersion | listDocumentVersions | findChildDocuments
  | listDocumentsByDate | listDeletedDocuments | findTags | findTag | searchTags | findAttributes
  | findAttribute | search | listFolder | folderOfDocument => exact same

theorem joinsWithin_isPlain (c : Config) (t : Tenant) : Table.JoinsWithin Attribute.IsPlain c t :=
  fun _ hT _ _ _ _ ha => Table.isPlain_of_mem_compositesOf hT ha

theorem plain_effect (h : T.AttributesHave Attribute.IsPlain) (hkeeps : T.Keeps t)
    (hplain : op.SetsPlain) : (op.effect c t T).AttributesHave Attribute.IsPlain := by
  refine attributesHave_effect h hkeeps (joinsWithin_isPlain c t) op ?_
  rintro id attributes rfl _ a ha
  exact hplain a ha

end Operation

namespace Table

variable {tenants : Tenant → Prop} {t : Tenant} {T : Table} {op : Operation}

/-- The tenants have filed the rows of the table, and no attribute has a key with the sign that stands
before values. -/
structure LegibleTo (tenants : Tenant → Prop) (T : Table) : Prop where
  filed : T.FiledBy tenants
  plain : T.AttributesHave Attribute.IsPlain

theorem LegibleTo.legible (h : T.LegibleTo tenants)
    (hapart : ∀ t u, tenants t → tenants u → u ≠ t → u.Apart t) (u : Tenant) (hu : tenants u) :
    T.Legible u :=
  ⟨h.filed.keeps fun u' hu' => hapart u u' hu hu', h.plain⟩

theorem LegibleTo.effect (h : T.LegibleTo tenants)
    (hapart : ∀ t u, tenants t → tenants u → u ≠ t → u.Apart t) (ht : tenants t)
    (hplain : op.SetsPlain) {c : Config} (n : Nat) :
    LegibleTo tenants { op.effect c t T with batchCalls := n } where
  filed := h.filed.of_edits ht
    ((Operation.edits_effect (h.legible hapart t ht).keeps c op).counted n)
  plain := Operation.plain_effect h.plain (h.legible hapart t ht).keeps hplain

end Table

namespace Store

open Attribute

variable {tenants : Tenant → Prop} {t : Tenant} {requests : List Request}

theorem legibleTo_fresh (name : String) (maxBatchSize : Nat) (clock : Clock) :
    (fresh name maxBatchSize clock).table.LegibleTo tenants :=
  ⟨filedBy_fresh name maxBatchSize clock tenants, attributesHave_fresh IsPlain name maxBatchSize clock⟩

theorem legible_induction (hapart : ∀ t u, tenants t → tenants u → u ≠ t → u.Apart t) {c : Config}
    {name : String} {maxBatchSize : Nat} {clock : Clock} {I : Table → Prop}
    (first : I (fresh name maxBatchSize clock).table)
    (step : ∀ r ∈ requests, ∀ T n, (∀ u, tenants u → T.Legible u) → I T →
      I { r.operation.effect c r.tenant T with batchCalls := n })
    (hrequests : ∀ r ∈ requests, tenants r.tenant ∧ r.operation.SetsPlain) :
    (∀ u, tenants u → (run c (fresh name maxBatchSize clock) requests).2.table.Legible u) ∧
      I (run c (fresh name maxBatchSize clock) requests).2.table := by
  have hall : (run c (fresh name maxBatchSize clock) requests).2.table.LegibleTo tenants ∧
      I (run c (fresh name maxBatchSize clock) requests).2.table := by
    refine run_induction (I := fun T => T.LegibleTo tenants ∧ I T) (fun r hr T n hT => ?_)
      ⟨legibleTo_fresh name maxBatchSize clock, first⟩
    obtain ⟨ht, hplain⟩ := hrequests r hr
    exact ⟨hT.1.effect hapart ht hplain n, step r hr T n (hT.1.legible hapart) hT.2⟩
  exact ⟨hall.1.legible hapart, hall.2⟩

theorem legible_run (hapart : ∀ t u, tenants t → tenants u → u ≠ t → u.Apart t) (c : Config)
    (name : String) (maxBatchSize : Nat) (clock : Clock)
    (hrequests : ∀ r ∈ requests, tenants r.tenant ∧ r.operation.SetsPlain) (ht : tenants t) :
    (run c (fresh name maxBatchSize clock) requests).2.table.Legible t :=
  (legible_induction (I := fun _ => True) hapart trivial (fun _ _ _ _ _ _ => trivial)
    hrequests).1 t ht

end Store

end Cabinet
