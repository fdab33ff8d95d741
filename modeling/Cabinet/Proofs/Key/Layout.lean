import Cabinet.Folder.Path
import Cabinet.Proofs.Key.Marking

/-! Which partitions a tenant's rows are in. Main statements: partitions of different kinds differ,
and the mark of soft deletion can be told. -/

namespace Cabinet

namespace Text

/-- Two ways to read a text in two parts: they agree, or a part goes on behind the sign where the other
way ends it. -/
theorem delimited_cases {a b c d : String} (h : a ++ delimiter ++ b = c ++ delimiter ++ d) :
    a = c ∧ b = d ∨ (∃ part, c = a ++ delimiter ++ part ∧ b = part ++ delimiter ++ d) ∨
      ∃ part, a = c ++ delimiter ++ part ∧ d = part ++ delimiter ++ b := by
  have further {x y : String} {xs ys zs : List Char} (hx : x.toList = y.toList ++ '#' :: xs)
      (hz : '#' :: zs = '#' :: xs ++ '#' :: ys) : ∃ part, x = y ++ delimiter ++ part ∧
        String.ofList zs = part ++ delimiter ++ String.ofList ys := by
    refine ⟨String.ofList xs, String.toList_inj.1 ?_, String.toList_inj.1 ?_⟩
    · simpa [delimiter] using hx
    · simpa [delimiter] using List.tail_eq_of_cons_eq hz
  have hlist : a.toList ++ '#' :: b.toList = c.toList ++ '#' :: d.toList := by
    simpa [delimiter] using congrArg String.toList h
  rcases List.append_eq_append_iff.1 hlist with ⟨rest, hc, hb⟩ | ⟨rest, ha, hd⟩
  · cases rest with
    | nil =>
      refine .inl ⟨String.toList_inj.1 (by simpa using hc.symm), String.toList_inj.1 ?_⟩
      simpa using hb
    | cons first rest =>
      obtain rfl : first = '#' := (List.cons.inj hb).1.symm
      exact .inr (.inl (by simpa using further hc hb))
  · cases rest with
    | nil =>
      refine .inl ⟨String.toList_inj.1 (by simpa using ha), String.toList_inj.1 ?_⟩
      simpa using hd.symm
    | cons first rest =>
      obtain rfl : first = '#' := (List.cons.inj hd).1.symm
      exact .inr (.inr (by simpa using further ha hd))

theorem delimited_injective {a b c d : String} (ha : '#' ∉ a.toList) (hc : '#' ∉ c.toList)
    (h : a ++ delimiter ++ b = c ++ delimiter ++ d) : a = c ∧ b = d := by
  rcases delimited_cases h with h | ⟨part, rfl, -⟩ | ⟨part, rfl, -⟩
  · exact h
  · exact absurd (by simp [delimiter]) hc
  · exact absurd (by simp [delimiter]) ha

end Text

namespace Partition

def words : List String := ["docs#", "docts#", "children#", "tag#", "folders#", "folder#"]

def IsLive (t : Tenant) (p : String) : Prop := ∃ word ∈ words, ∃ rest, p = t.key (word ++ rest)

def IsDeleted (t : Tenant) (p : String) : Prop := ∃ q, IsLive t q ∧ p = SoftDelete.markKey t q

variable {t : Tenant} {p q id key value path : String}

theorem isLive_document : IsLive t (document t id) := ⟨"docs#", by decide, id, rfl⟩

theorem isLive_day {day : String} : IsLive t (Partition.day t day) := ⟨"docts#", by decide, day, rfl⟩

theorem isLive_children : IsLive t (children t id) := ⟨"children#", by decide, id, rfl⟩

theorem isLive_attributeKey : IsLive t (attributeKey t key) :=
  ⟨"docs#", by decide, "attr#" ++ key, by
    rw [attributeKey, ← String.append_assoc]
    rfl⟩

theorem isLive_tag : IsLive t (tag t key) := ⟨"tag#", by decide, key, rfl⟩

theorem isLive_tagValue : IsLive t (tagValue t key value) :=
  ⟨"tag#", by decide, key ++ delimiter ++ value, by simp only [tagValue, String.append_assoc]⟩

theorem isLive_leaf : IsLive t (leaf t id) := ⟨"folder#", by decide, id, rfl⟩

theorem isLive_folderKey : IsLive t (Path.folderKey t path) := ⟨"folders#", by decide, _, rfl⟩

theorem key_append_ne {a b : String} (h : Text.beginsWith a b = false)
    (h' : Text.beginsWith b a = false) (x y : String) : t.key (a ++ x) ≠ t.key (b ++ y) :=
  fun e => Text.append_ne_append h h' x y (Tenant.key_injective e)

theorem document_injective (h : document t p = document t q) : p = q := by
  simpa [document] using Tenant.key_injective h

theorem leaf_injective (h : leaf t p = leaf t q) : p = q := by
  simpa [leaf] using Tenant.key_injective h

theorem children_injective (h : children t p = children t q) : p = q := by
  simpa [children] using Tenant.key_injective h

theorem document_ne_folderKey : document t id ≠ Path.folderKey t path :=
  key_append_ne (by decide) (by decide) _ _

theorem day_ne_leaf {day : String} : Partition.day t day ≠ leaf t id :=
  key_append_ne (by decide) (by decide) _ _

theorem tagValue_ne_leaf : tagValue t key value ≠ leaf t id := by
  rw [tagValue, String.append_assoc, String.append_assoc]
  exact key_append_ne (by decide) (by decide) _ _

theorem attributeKey_ne_leaf : attributeKey t key ≠ leaf t id :=
  key_append_ne (by decide) (by decide) _ _

theorem day_injective {d e : String} (h : Partition.day t d = Partition.day t e) : d = e := by
  simpa [Partition.day] using Tenant.key_injective h

theorem tagValue_ne_day {day : String} : tagValue t key value ≠ Partition.day t day := by
  rw [tagValue, String.append_assoc, String.append_assoc]
  exact key_append_ne (by decide) (by decide) _ _

theorem attributeKey_ne_day {day : String} : attributeKey t key ≠ Partition.day t day :=
  key_append_ne (by decide) (by decide) _ _

theorem attributeKey_injective {key' : String} (h : attributeKey t key = attributeKey t key') :
    key = key' := by
  simpa [attributeKey] using Tenant.key_injective h

theorem tag_injective {key' : String} (h : tag t key = tag t key') : key = key' := by
  simpa [tag] using Tenant.key_injective h

theorem tagValue_injective {key' value' : String} (hkey : '#' ∉ key.toList)
    (hkey' : '#' ∉ key'.toList) (h : tagValue t key value = tagValue t key' value') :
    key = key' ∧ value = value' := by
  have h := Tenant.key_injective h
  rw [String.append_assoc, String.append_assoc, String.append_assoc, String.append_assoc,
    String.append_right_inj, ← String.append_assoc, ← String.append_assoc] at h
  exact Text.delimited_injective hkey hkey' h

theorem tagValue_ne_attributeKey {key' : String} :
    tagValue t key value ≠ attributeKey t key' := by
  rw [tagValue, String.append_assoc, String.append_assoc]
  exact key_append_ne (by decide) (by decide) _ _

theorem leaf_ne_day {day : String} : leaf t id ≠ Partition.day t day := day_ne_leaf.symm

theorem tag_ne_children : tag t key ≠ children t id :=
  key_append_ne (by decide) (by decide) _ _

theorem IsLive.holds (h : IsLive t p) : t.Holds p := by
  obtain ⟨word, -, rest, rfl⟩ := h
  exact ⟨_, rfl⟩

theorem isMarked_key_marker (x : String) :
    SoftDelete.isMarked t (t.key (SoftDelete.marker ++ x)) = true := by
  rw [SoftDelete.isMarked, SoftDelete.splitScope_key]
  exact Text.beginsWith_append _ _

theorem IsLive.isMarked (h : IsLive t p) : SoftDelete.isMarked t p = false := by
  obtain ⟨word, hword, rest, rfl⟩ := h
  have hne : ∀ word ∈ words, Text.beginsWith SoftDelete.marker word = false ∧
      Text.beginsWith word SoftDelete.marker = false := by decide
  rw [SoftDelete.isMarked, SoftDelete.splitScope_key, Bool.eq_false_iff, ne_eq, Text.beginsWith_iff]
  rintro ⟨x, hx⟩
  exact Text.append_ne_append (hne word hword).2 (hne word hword).1 rest x hx

theorem IsDeleted.isMarked (h : IsDeleted t p) : SoftDelete.isMarked t p = true := by
  obtain ⟨q, hq, rfl⟩ := h
  obtain ⟨id, rfl⟩ := hq.holds
  rw [SoftDelete.markKey_key]
  exact isMarked_key_marker id

theorem IsLive.isDeleted_markKey (h : IsLive t p) : IsDeleted t (SoftDelete.markKey t p) :=
  ⟨p, h, rfl⟩

theorem IsLive.ne_of_isDeleted (h : IsLive t p) (h' : IsDeleted t q) : p ≠ q := by
  rintro rfl
  have := h.isMarked
  rw [h'.isMarked] at this
  cases this

theorem IsLive.markKey_injective (h : IsLive t p) (h' : IsLive t q)
    (e : SoftDelete.markKey t p = SoftDelete.markKey t q) : p = q :=
  SoftDelete.markKey_injective h.holds h'.holds e

end Partition

namespace SortKey

theorem markKey_default (s : String) :
    SoftDelete.markKey .default s = SoftDelete.marker ++ s := by
  have := SoftDelete.markKey_key .default s
  simpa using this

theorem attributeKey_append_injective {key key' value value' : String} (hkey : '#' ∉ key.toList)
    (hkey' : '#' ∉ key'.toList) (h : attributeKey key ++ value = attributeKey key' ++ value') :
    key = key' ∧ value = value' := by
  rw [attributeKey, attributeKey, String.append_assoc, String.append_assoc, String.append_assoc,
    String.append_assoc, String.append_right_inj, ← String.append_assoc, ← String.append_assoc] at h
  exact Text.delimited_injective hkey hkey' h

theorem leaf_injective {name name' id id' : String} (hid : '#' ∉ id.toList)
    (hid' : '#' ∉ id'.toList) (h : leaf name ++ delimiter ++ id = leaf name' ++ delimiter ++ id') :
    name = name' ∧ id = id' := by
  have hlist : name.toList ++ '#' :: id.toList = name'.toList ++ '#' :: id'.toList := by
    simpa [leaf, delimiter] using congrArg String.toList h
  have hreverse : id.toList.reverse ++ '#' :: name.toList.reverse =
      id'.toList.reverse ++ '#' :: name'.toList.reverse := by
    simpa using congrArg List.reverse hlist
  have hpieces := congrArg (Text.pieces '#') hreverse
  rw [Text.pieces_append_cons (by simpa using hid), Text.pieces_append_cons (by simpa using hid')]
    at hpieces
  have hids : id.toList = id'.toList := List.reverse_inj.1 (List.cons.inj hpieces).1
  rw [hids, List.append_left_inj] at hlist
  exact ⟨String.toList_inj.1 hlist, String.toList_inj.1 hids⟩

end SortKey

namespace Address

def marked (t : Tenant) (a : Address) : Address :=
  ⟨SoftDelete.markKey t a.partition, SoftDelete.markKey .default a.sort⟩

theorem marked_injective {t : Tenant} {a b : Address} (ha : Partition.IsLive t a.partition)
    (hb : Partition.IsLive t b.partition) (h : a.marked t = b.marked t) : a = b := by
  obtain ⟨hp, hs⟩ := Address.mk.inj h
  have hp := ha.markKey_injective hb hp
  rw [SortKey.markKey_default, SortKey.markKey_default, String.append_right_inj] at hs
  cases a
  cases b
  simp_all

end Address

end Cabinet
