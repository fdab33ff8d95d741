import Cabinet.Tenant

/-! What a key tells of its tenant. Main statements: the keys of a site give the site and the id back,
and another site takes them as they are; taking the scope off twice is the same as taking it off once
for all keys but those that carry it twice. -/

namespace Cabinet.Tenant

variable {t : Tenant} {a b i k : String} {x y : Option String}

theorem ofSite_eq_site_iff : ofSite i = .ok (.site a) ↔
    i = a ∧ Text.allBlank a = false ∧ '/' ∉ a.toList ∧ a ≠ defaultName := by
  grind [ofSite]

theorem read_eq_site_iff : read x = .ok (.site a) ↔
    x = some a ∧ Text.allBlank a = false ∧ '/' ∉ a.toList ∧ a ≠ defaultName := by
  cases x with
  | none => simp [read]
  | some i => grind [read, ofSite_eq_site_iff]

theorem not_mem_of_read (h : read x = .ok (.site a)) : '/' ∉ a.toList :=
  (read_eq_site_iff.1 h).2.2.1

theorem ne_empty_of_read (h : read x = .ok (.site a)) : a ≠ "" := by
  rintro rfl
  exact absurd (read_eq_site_iff.1 h).2.1 (by decide)

theorem cut?_key_site (ha : '/' ∉ a.toList) (i : String) :
    Text.cut? '/' ((site a).key i) = some (a, i) :=
  Text.cut?_eq_some_iff.2 ⟨rfl, ha⟩

theorem key_site_ne (a i : String) : (site a).key i ≠ i := by
  intro h
  have hlength := congrArg (·.toList.length) h
  simp only [key_site, String.toList_append, List.length_append] at hlength
  have hslash : "/".toList.length = 1 := by decide
  omega

theorem site_eq_of_key_eq {i j : String} (ha : '/' ∉ a.toList) (hb : '/' ∉ b.toList)
    (h : (site a).key i = (site b).key j) : a = b := by
  have hcut := cut?_key_site ha i
  rw [h, cut?_key_site hb] at hcut
  exact (Prod.mk.inj (Option.some.inj hcut)).1.symm

theorem decodeId_key_site (ha : '/' ∉ a.toList) (i : String) : decodeId ((site a).key i) = i := by
  rw [decodeId, cut?_key_site ha]

theorem decode?_key_site (ha : '/' ∉ a.toList) (hname : a ≠ defaultName) (hempty : a ≠ "")
    (i : String) : decode? ((site a).key i) = some (.site a) := by
  simp [decode?, cut?_key_site ha, hname, hempty]

theorem decodeId_eq_self_iff : decodeId k = k ↔ '/' ∉ k.toList := by
  rw [← Text.cut?_eq_none_iff, decodeId]
  cases hcut : Text.cut? '/' k with
  | none => simp
  | some parts =>
    have hk : k = (site parts.1).key parts.2 := (Text.cut?_eq_some_iff.1 hcut).1
    have hne : parts.2 ≠ k := hk ▸ (key_site_ne parts.1 parts.2).symm
    simp [hne]

theorem decode?_of_not_mem (h : '/' ∉ k.toList) : decode? k = none := by
  rw [decode?, Text.cut?_eq_none_iff.2 h]

def Holds (t : Tenant) (k : String) : Prop := ∃ id, k = t.key id

theorem holds_key (t : Tenant) (id : String) : t.Holds (t.key id) := ⟨id, rfl⟩

theorem holds_default (k : String) : Tenant.default.Holds k := ⟨k, (key_default k).symm⟩

theorem not_holds_of_site (ha : '/' ∉ a.toList) (hb : '/' ∉ b.toList) (hne : a ≠ b) (i : String) :
    ¬(site b).Holds ((site a).key i) := by
  rintro ⟨j, h⟩
  exact hne (site_eq_of_key_eq ha hb h)

theorem rebase_of_not_holds (h : ¬t.Holds k) : t.rebase k = k := by
  have hnone : Text.dropFront? t.scope k = none :=
    Text.dropFront?_eq_none_iff.2 fun rest hk => h ⟨rest, hk⟩
  rw [rebase, hnone]
  rfl

theorem rebase_eq_self_iff : t.rebase k = k ↔ t = .default ∨ ¬t.Holds k := by
  by_cases hk : t.Holds k
  · obtain ⟨id, rfl⟩ := hk
    rw [rebase_key]
    cases t with
    | default => simp
    | site a => simp [holds_key, (key_site_ne a id).symm]
  · simp [rebase_of_not_holds hk, hk]

/-- Once and twice are the same unless there is a scope, and the key carries it twice. -/
theorem rebase_rebase_iff (t : Tenant) (k : String) :
    t.rebase (t.rebase k) = t.rebase k ↔ t = .default ∨ ∀ id, k ≠ t.key (t.key id) := by
  rw [rebase_eq_self_iff]
  refine or_congr_right ?_
  by_cases hk : t.Holds k
  · obtain ⟨i, rfl⟩ := hk
    rw [rebase_key, Holds, not_exists]
    exact forall_congr' fun id => not_congr ⟨congrArg t.key, key_injective⟩
  · rw [rebase_of_not_holds hk]
    exact iff_of_true hk fun id h => hk (h ▸ holds_key t _)

/-- The key of an id that looks like a key of the same site loses its scope, and then the id loses
what looks like one. -/
theorem rebase_rebase_acme : read (some "acme") = .ok (.site "acme") ∧
    (site "acme").rebase "acme/acme/x" = "acme/x" ∧
    (site "acme").rebase ((site "acme").rebase "acme/acme/x") = "x" ∧
    (site "acme").rebase ((site "acme").rebase "acme/acme/x") ≠
      (site "acme").rebase "acme/acme/x" := by
  have hread : read (some "acme") = .ok (.site "acme") :=
    read_eq_site_iff.2 ⟨rfl, by decide, by decide, by decide⟩
  exact ⟨hread, by decide, by decide, by decide⟩

/-- The key of a site tells the site and the id, whatever the id, and is nothing to another site. A key
of the default tenant is read as its id exactly when there is no slash in it. -/
theorem keys_tell_sites_apart (ha : read x = .ok (.site a)) (hb : read y = .ok (.site b))
    (hne : a ≠ b) (i j : String) :
    decode? ((site a).key i) = some (.site a) ∧ decodeId ((site a).key i) = i ∧
      (site a).rebase ((site a).key i) = i ∧ (site b).rebase ((site a).key i) = (site a).key i ∧
      (site a).key i ≠ (site b).key j ∧
      ∀ k, (decodeId (Tenant.default.key k) = k ↔ '/' ∉ k.toList) ∧
        ('/' ∉ k.toList → decode? (Tenant.default.key k) = none) := by
  obtain ⟨-, -, hslash, hname⟩ := read_eq_site_iff.1 ha
  have hslash' := not_mem_of_read hb
  refine ⟨decode?_key_site hslash hname (ne_empty_of_read ha) i, decodeId_key_site hslash i,
    rebase_key _ i, rebase_of_not_holds (not_holds_of_site hslash hslash' hne i),
    fun h => hne (site_eq_of_key_eq hslash hslash' h), fun k => ?_⟩
  rw [key_default]
  exact ⟨decodeId_eq_self_iff, decode?_of_not_mem⟩

theorem keys_tell_acme_apart :
    read (some "acme") = .ok (.site "acme") ∧ read (some "acme-eu") = .ok (.site "acme-eu") ∧
      "acme" ≠ "acme-eu" ∧
      decode? ((site "acme").key "-eu/docs#1") = some (.site "acme") ∧
      decodeId ((site "acme").key "-eu/docs#1") = "-eu/docs#1" ∧
      (site "acme").rebase ((site "acme").key "-eu/docs#1") = "-eu/docs#1" ∧
      (site "acme-eu").rebase ((site "acme").key "-eu/docs#1") = (site "acme").key "-eu/docs#1" ∧
      (site "acme").key "-eu/docs#1" ≠ (site "acme-eu").key "docs#1" ∧
      ∀ k, (decodeId (Tenant.default.key k) = k ↔ '/' ∉ k.toList) ∧
        ('/' ∉ k.toList → decode? (Tenant.default.key k) = none) := by
  have hshort : read (some "acme") = .ok (.site "acme") :=
    read_eq_site_iff.2 ⟨rfl, by decide, by decide, by decide⟩
  have hlong : read (some "acme-eu") = .ok (.site "acme-eu") :=
    read_eq_site_iff.2 ⟨rfl, by decide, by decide, by decide⟩
  have hne : "acme" ≠ "acme-eu" := by decide
  exact ⟨hshort, hlong, hne, keys_tell_sites_apart hshort hlong hne "-eu/docs#1" "docs#1"⟩

end Cabinet.Tenant
