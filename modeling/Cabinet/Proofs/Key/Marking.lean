import Mathlib.Data.Set.Function
import Cabinet.Key.SoftDelete
import Cabinet.Proofs.Key.Scope

/-! Soft deletion as a map of row keys. Main statement: of the keys that a tenant holds, the restored
ones are those that soft deletion gives, and each comes back as the only key that gives it. -/

namespace Cabinet

/-- The tenant holds all partitions of the row, that of its own address and those of its index
entries. -/
def RowKey.IsHeldBy (key : RowKey) (t : Tenant) : Prop :=
  ∀ i a, key.entry i = some a → t.Holds a.partition

theorem RowKey.isHeldBy_iff {key : RowKey} {t : Tenant} : key.IsHeldBy t ↔
    t.Holds key.primary.partition ∧ (∀ a ∈ key.first, t.Holds a.partition) ∧
      ∀ a ∈ key.second, t.Holds a.partition := by
  constructor
  · intro h
    exact ⟨h .primary _ rfl, h .first, h .second⟩
  · rintro ⟨hprimary, hfirst, hsecond⟩ i a ha
    cases i with
    | primary => exact Option.some.inj ha ▸ hprimary
    | first => exact hfirst a ha
    | second => exact hsecond a ha

namespace SoftDelete

variable {t : Tenant} {p q s u : String} {a b : Address} {o r : Option Address} {key key' : RowKey}

theorem holds_markKey (h : t.Holds p) : t.Holds (markKey t p) := by
  obtain ⟨id, rfl⟩ := h
  exact ⟨_, markKey_key t id⟩

theorem unmarkKey_key_eq_ok_iff {id : String} :
    unmarkKey t (t.key id) = .ok p ↔ ∃ rest, id = marker ++ rest ∧ p = t.key rest := by
  rw [unmarkKey, splitScope_key]
  cases hrest : Text.dropFront? marker id with
  | none =>
    have hnone := Text.dropFront?_eq_none_iff.1 hrest
    simp [hrest, hnone]
  | some rest =>
    obtain rfl := Text.dropFront?_eq_some_iff.1 hrest
    simp [Tenant.key, eq_comm]

theorem unmarkKey_eq_ok_iff (h : t.Holds q) :
    unmarkKey t q = .ok p ↔ t.Holds p ∧ markKey t p = q := by
  obtain ⟨id, rfl⟩ := h
  rw [unmarkKey_key_eq_ok_iff]
  constructor
  · rintro ⟨rest, rfl, rfl⟩
    exact ⟨t.holds_key rest, markKey_key t rest⟩
  · rintro ⟨⟨rest, rfl⟩, hmark⟩
    rw [markKey_key] at hmark
    exact ⟨rest, (Tenant.key_injective hmark).symm, rfl⟩

theorem unmarkKey_markKey (h : t.Holds p) : unmarkKey t (markKey t p) = .ok p :=
  (unmarkKey_eq_ok_iff (holds_markKey h)).2 ⟨h, rfl⟩

theorem markKey_injective (h : t.Holds p) (h' : t.Holds q) (e : markKey t p = markKey t q) :
    p = q := by
  have hunmark := unmarkKey_markKey h
  rw [e, unmarkKey_markKey h'] at hunmark
  exact (Except.ok.inj hunmark).symm

theorem unmarkKey_default_eq_ok_iff : unmarkKey .default u = .ok s ↔ markKey .default s = u := by
  rw [unmarkKey_eq_ok_iff (Tenant.holds_default u), and_iff_right (Tenant.holds_default s)]

theorem bind_eq_ok_iff {ε α β : Type} {x : Except ε α} {f : α → Except ε β} {y : β} :
    x >>= f = .ok y ↔ ∃ z, x = .ok z ∧ f z = .ok y := by
  cases x <;> simp [bind, Except.bind]

theorem unmarkEntry_eq_ok_iff (h : t.Holds b.partition) :
    unmarkEntry t b = .ok a ↔ t.Holds a.partition ∧ markEntry t a = b := by
  rw [unmarkEntry, bind_eq_ok_iff]
  constructor
  · rintro ⟨p, hp, ⟨⟩⟩
    obtain ⟨hheld, hmark⟩ := (unmarkKey_eq_ok_iff h).1 hp
    exact ⟨hheld, by rw [markEntry, hmark]⟩
  · rintro ⟨hheld, rfl⟩
    exact ⟨a.partition, (unmarkKey_eq_ok_iff h).2 ⟨hheld, rfl⟩, rfl⟩

theorem mapM_some_eq_ok_iff :
    (some b).mapM (unmarkEntry t) = .ok o ↔ ∃ a, unmarkEntry t b = .ok a ∧ some a = o := by
  have hsome : (some b).mapM (unmarkEntry t) = unmarkEntry t b >>= fun a => pure (some a) := by
    rw [← map_eq_pure_bind]
    rfl
  rw [hsome, bind_eq_ok_iff]
  exact exists_congr fun a => and_congr_right fun _ => ⟨Except.ok.inj, congrArg Except.ok⟩

theorem mapM_unmarkEntry_eq_ok_iff (h : ∀ b ∈ r, t.Holds b.partition) :
    r.mapM (unmarkEntry t) = .ok o ↔
      (∀ a ∈ o, t.Holds a.partition) ∧ o.map (markEntry t) = r := by
  cases r with
  | none =>
    have hnone : (none : Option Address).mapM (unmarkEntry t) = .ok none := rfl
    rw [hnone]
    cases o <;> simp
  | some b =>
    have hb (a : Address) := unmarkEntry_eq_ok_iff (a := a) (h b rfl)
    rw [mapM_some_eq_ok_iff]
    constructor
    · rintro ⟨a, ha, rfl⟩
      obtain ⟨hheld, hmark⟩ := (hb a).1 ha
      simp [hheld, hmark]
    · rintro ⟨hheld, hmark⟩
      obtain ⟨a, rfl, ha⟩ := Option.map_eq_some_iff.1 hmark
      exact ⟨a, (hb a).2 ⟨hheld a rfl, ha⟩, rfl⟩

theorem unmark_eq (t : Tenant) (key : RowKey) : unmark t key = do
    let partition ← unmarkKey t key.primary.partition
    let sort ← unmarkKey .default key.primary.sort
    let first ← key.first.mapM (unmarkEntry t)
    let second ← key.second.mapM (unmarkEntry t)
    return { primary := ⟨partition, sort⟩, first, second } := by
  obtain ⟨primary, first, second⟩ := key
  cases first <;> cases second <;> rfl

theorem unmark_eq_ok_iff (h : key'.IsHeldBy t) :
    unmark t key' = .ok key ↔ key.IsHeldBy t ∧ mark t key = key' := by
  obtain ⟨hprimary, hfirst, hsecond⟩ := RowKey.isHeldBy_iff.1 h
  rw [RowKey.isHeldBy_iff]
  simp only [unmark_eq, bind_eq_ok_iff, unmarkKey_eq_ok_iff hprimary, unmarkKey_default_eq_ok_iff,
    mapM_unmarkEntry_eq_ok_iff hfirst, mapM_unmarkEntry_eq_ok_iff hsecond]
  constructor
  · rintro ⟨p, ⟨hp, hmark⟩, s, hsort, first, ⟨hf, hmarkFirst⟩, second, ⟨hs, hmarkSecond⟩, ⟨⟩⟩
    exact ⟨⟨hp, hf, hs⟩, by rw [mark, hmark, hsort, hmarkFirst, hmarkSecond]⟩
  · rintro ⟨⟨hp, hf, hs⟩, rfl⟩
    exact ⟨_, ⟨hp, rfl⟩, _, rfl, _, ⟨hf, rfl⟩, _, ⟨hs, rfl⟩, rfl⟩

theorem isHeldBy_mark (h : key.IsHeldBy t) : (mark t key).IsHeldBy t := by
  obtain ⟨hprimary, hfirst, hsecond⟩ := RowKey.isHeldBy_iff.1 h
  have hentry {o : Option Address} (ho : ∀ a ∈ o, t.Holds a.partition) :
      ∀ a ∈ o.map (markEntry t), t.Holds a.partition := by
    intro b hb
    obtain ⟨a, ha, rfl⟩ := Option.map_eq_some_iff.1 hb
    exact holds_markKey (ho a ha)
  exact RowKey.isHeldBy_iff.2 ⟨holds_markKey hprimary, hentry hfirst, hentry hsecond⟩

theorem unmark_mark (h : key.IsHeldBy t) : unmark t (mark t key) = .ok key :=
  (unmark_eq_ok_iff (isHeldBy_mark h)).2 ⟨h, rfl⟩

theorem mark_injOn (t : Tenant) : Set.InjOn (mark t) {key | key.IsHeldBy t} := by
  intro key h key' h' hmark
  have hunmark := unmark_mark h
  rw [hmark, unmark_mark h'] at hunmark
  exact (Except.ok.inj hunmark).symm

theorem unmark_eq_error_iff (h : key'.IsHeldBy t) :
    (∃ fault, unmark t key' = .error fault) ↔ ∀ key, key.IsHeldBy t → mark t key ≠ key' := by
  have hok (key : RowKey) : unmark t key' = .ok key ↔ key.IsHeldBy t ∧ mark t key = key' :=
    unmark_eq_ok_iff h
  cases hunmark : unmark t key' with
  | error fault =>
    rw [hunmark] at hok
    refine iff_of_true ⟨fault, rfl⟩ fun key hkey hmark => ?_
    cases (hok key).2 ⟨hkey, hmark⟩
  | ok key =>
    obtain ⟨hkey, hmark⟩ := (hok key).1 hunmark
    exact iff_of_false (fun ⟨_, he⟩ => nomatch he) fun hnone => hnone key hkey hmark

theorem map_sort_mark {i : Index} (hi : i ≠ .primary) (key : RowKey) :
    ((mark t key).entry i).map (·.sort) = (key.entry i).map (·.sort) := by
  cases i with
  | primary => exact absurd rfl hi
  | first => exact Option.map_map ..
  | second => exact Option.map_map ..

theorem map_sort_of_mapM_unmarkEntry (h : r.mapM (unmarkEntry t) = .ok o) :
    o.map (·.sort) = r.map (·.sort) := by
  cases r with
  | none =>
    cases h
    rfl
  | some b =>
    obtain ⟨a, ha, rfl⟩ := mapM_some_eq_ok_iff.1 h
    rw [unmarkEntry, bind_eq_ok_iff] at ha
    obtain ⟨p, -, ⟨⟩⟩ := ha
    rfl

theorem map_sort_of_unmark {i : Index} (hi : i ≠ .primary) (h : unmark t key' = .ok key) :
    (key.entry i).map (·.sort) = (key'.entry i).map (·.sort) := by
  simp only [unmark_eq, bind_eq_ok_iff] at h
  obtain ⟨p, -, s, -, first, hfirst, second, hsecond, ⟨⟩⟩ := h
  cases i with
  | primary => exact absurd rfl hi
  | first => exact map_sort_of_mapM_unmarkEntry hfirst
  | second => exact map_sort_of_mapM_unmarkEntry hsecond

/-- Within the keys that a tenant holds, unmarking is the inverse of marking: it gives back the one key
that is marked so, and fails where there is none. Neither touches the sort keys of index entries. -/
theorem unmark_inverts_mark (t : Tenant) :
    (∀ key key' : RowKey, key.IsHeldBy t → key'.IsHeldBy t →
      (unmark t key' = .ok key ↔ mark t key = key')) ∧
    (∀ key : RowKey, key.IsHeldBy t → (mark t key).IsHeldBy t ∧ unmark t (mark t key) = .ok key) ∧
    Set.InjOn (mark t) {key | key.IsHeldBy t} ∧
    (∀ key' : RowKey, key'.IsHeldBy t → ((∃ fault, unmark t key' = .error fault) ↔
      ∀ key, key.IsHeldBy t → mark t key ≠ key')) ∧
    ∀ i, i ≠ Index.primary → ∀ key key' : RowKey,
      ((mark t key).entry i).map (·.sort) = (key.entry i).map (·.sort) ∧
      (unmark t key' = .ok key → (key.entry i).map (·.sort) = (key'.entry i).map (·.sort)) := by
  refine ⟨fun key key' h h' => ?_, fun key h => ⟨isHeldBy_mark h, unmark_mark h⟩, mark_injOn t,
    fun key' h' => unmark_eq_error_iff h', fun i hi key key' => ?_⟩
  · rw [unmark_eq_ok_iff h', and_iff_right h]
  · exact ⟨map_sort_mark hi key, map_sort_of_unmark hi⟩

/-- Outside of the scope another key can be marked the same. -/
example : markKey (.site "softdelete#x") "softdelete#x/y" =
    markKey (.site "softdelete#x") "x/softdelete#y" := by
  decide

def looksMarked : RowKey where
  primary := ⟨"acme/softdelete#acme/softdelete#x", "document"⟩
  first := some ⟨"acme/softdelete#b/c", "softdelete#s"⟩

def looksMarkedTwice : RowKey where
  primary := ⟨"acme/softdelete#softdelete#acme/softdelete#x", "softdelete#document"⟩
  first := some ⟨"acme/softdelete#softdelete#b/c", "softdelete#s"⟩

theorem unmark_inverts_mark_acme :
    looksMarked.IsHeldBy (.site "acme") ∧ looksMarkedTwice.IsHeldBy (.site "acme") ∧
      (unmark (.site "acme") looksMarkedTwice = .ok looksMarked ↔
        mark (.site "acme") looksMarked = looksMarkedTwice) ∧
      mark (.site "acme") looksMarked = looksMarkedTwice ∧
      ((∃ fault, unmark (.site "acme") looksMarked = .error fault) ↔
        ∀ key, key.IsHeldBy (.site "acme") → mark (.site "acme") key ≠ looksMarked) ∧
      unmark (.site "acme") looksMarked = .error ⟨"document"⟩ := by
  have hheld (id sort id' sort' : String) : RowKey.IsHeldBy
      { primary := ⟨(Tenant.site "acme").key id, sort⟩
        first := some ⟨(Tenant.site "acme").key id', sort'⟩ } (.site "acme") := by
    simp [RowKey.isHeldBy_iff, Tenant.holds_key]
  have hmarked : looksMarked.IsHeldBy (.site "acme") :=
    hheld "softdelete#acme/softdelete#x" _ "softdelete#b/c" _
  have htwice : looksMarkedTwice.IsHeldBy (.site "acme") :=
    hheld "softdelete#softdelete#acme/softdelete#x" _ "softdelete#softdelete#b/c" _
  obtain ⟨hiff, -, -, herror, -⟩ := unmark_inverts_mark (.site "acme")
  exact ⟨hmarked, htwice, hiff looksMarked looksMarkedTwice hmarked htwice, by decide,
    herror looksMarked hmarked, rfl⟩

end SoftDelete

end Cabinet
