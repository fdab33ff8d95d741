import Cabinet.Proofs.Number.KeyOrder
import Cabinet.Proofs.Store.AttributeSearch
import Cabinet.Proofs.Store.CompositeSearch

/-! Searching for documents by a range of numbers. Main statement: the search finds exactly the documents
that have a number between the bounds if the texts between the bounds are those of the numbers between
them, and for no other bounds; among bounds that fit their places these are the faithful ranges. -/

namespace Cabinet

open Attribute

namespace Criterion

variable {key lowText highText : String}

def between (key lowText highText : String) : Criterion :=
  { key, range := some ⟨.number, lowText, highText⟩ }

end Criterion

namespace Criteria

variable {limit : Nat} {criteria : Criteria} {key lowText highText : String} {low high : Binary64}
  (h : check limit [.between key lowText highText] = .ok criteria)
  (hlow : Decimal.read? (Text.trim lowText) = some low)
  (hhigh : Decimal.read? (Text.trim highText) = some high)

include h hlow hhigh

theorem isFinite_of_check : low.isFinite ∧ high.isFinite := by
  have hbounds := ((wellFormed_of_check h).complete _ List.mem_cons_self).bounded _ rfl rfl
  simpa [hlow, hhigh] using hbounds

theorem accepts_between_iff {text : String} : (Criterion.between key lowText highText).Accepts text ↔
    keyNumber.render low ≤ text ∧ text ≤ keyNumber.render high := by
  obtain ⟨hlow', hhigh'⟩ := isFinite_of_check h hlow hhigh
  have hindexLow : numberIndexText? lowText = some (keyNumber.render low) := by
    simp [numberIndexText?, hlow, hlow', Option.filter]
  have hindexHigh : numberIndexText? highText = some (keyNumber.render high) := by
    simp [numberIndexText?, hhigh, hhigh', Option.filter]
  rw [Criterion.between, Criterion.accepts_range_iff]
  simp [Range.Includes, hindexLow, hindexHigh]

end Criteria

def Attribute.IsFinite (a : Attribute) : Prop := ∀ v, a.value = .number v → v.isFinite

theorem Attribute.isFinite_of_issues {a : Attribute} (h : a.issues = []) : a.IsFinite := by
  intro v hv
  unfold issues at h
  simp only at h
  split at h
  · cases h
  · simp only [List.append_eq_nil_iff, hv] at h
    simpa [onlyIf] using h.1.2

namespace Table

variable {t : Tenant} {T : Table} {c : Config} {id key : String} {group : List String} {a : Attribute}
  {low high : Binary64} {d : Document}

def HoldsNumbers (T : Table) (t : Tenant) (key : String) : Prop :=
  ∀ id, ∀ a ∈ T.attributesOf t id key, ∃ v, a.value = .number v

/-- A live document has a number of the key that is between the bounds, all of them rounded. -/
def HasNumberWithin (T : Table) (t : Tenant) (key : String) (low high : Binary64) (d : Document) :
    Prop :=
  T.document? t d.id = some d ∧ ∃ a ∈ T.attributesOf t d.id key, ∃ v, a.value = .number v ∧
    keyNumber.rounded low ≤ keyNumber.rounded v ∧ keyNumber.rounded v ≤ keyNumber.rounded high

theorem isFinite_of_mem_compositesOf (h : a ∈ T.compositesOf t id group) : a.IsFinite := by
  obtain ⟨values, -, userId, inserted, rfl⟩ := exists_of_mem_compositesOf h
  nofun

/-- Where texts compare like numbers, a criterion that compares the texts matches the documents with a
number between the bounds. -/
theorem hasNumberWithin_iff_matches (h : T.Keeps t) (hfinite : T.AttributesHave IsFinite)
    (hnumbers : T.HoldsNumbers t key) (hcompares : low.ComparesNumbers high) {x : Criterion}
    (hkey : x.key = key) (haccepts : ∀ text, x.Accepts text ↔
      keyNumber.render low ≤ text ∧ text ≤ keyNumber.render high) :
    T.HasNumberWithin t key low high d ↔ T.Matches t x d := by
  rw [HasNumberWithin, Matches, hkey]
  refine and_congr_right fun _ => exists_congr fun a => and_congr_right fun ha => ?_
  obtain ⟨v, hv⟩ := hnumbers d.id a ha
  have hvFinite : v.isFinite :=
    hfinite _ ((mem_attributesOf h).1 ha).1 a rfl v hv
  rw [haccepts, hv]
  refine Iff.trans ?_ (hcompares v hvFinite).symm
  simp

theorem attributeRows_eq_nil (h : T.AttributesHave (·.key = key)) {other : String}
    (hne : other ≠ key) : T.attributeRows t id other = [] := by
  refine List.filter_eq_nil_iff.2 fun row hrow hother => hne ?_
  obtain ⟨a, ha, hkey⟩ := (Option.any_eq_true _ _).1 hother
  rw [← of_decide_eq_true hkey]
  exact h row (mem_rowsFrom.1 hrow).1 a (Row.record_of_attribute? ha)

theorem compositesOf_eq_nil (h : T.AttributesHave (·.key = key)) (hgroup : 2 ≤ group.length)
    (hnodup : group.Nodup) : T.compositesOf t id group = [] := by
  obtain ⟨other, hother, hne⟩ : ∃ other ∈ group, other ≠ key := by
    by_contra hall
    push Not at hall
    rw [List.eq_replicate_of_mem hall, List.nodup_replicate] at hnodup
    omega
  refine List.eq_nil_iff_forall_not_mem.2 fun a ha => ?_
  obtain ⟨values, hvalues, -⟩ := exists_of_mem_compositesOf ha
  refine ne_nil_of_mem_combinations hvalues _ (List.mem_map_of_mem hother) ?_
  rw [attributesOf, attributeRows_eq_nil h hne]
  rfl

theorem refreshComposites_eq_self (h : T.AttributesHave (·.key = key)) (hc : c.Valid)
    (hsolid : Text.mentions compositeDelimiter (Text.trim key) = false) (keys : List String) :
    T.refreshComposites c t id keys = T := by
  refine List.foldlRecOn (motive := (· = T)) _ _ rfl fun _ hT group hgroup => ?_
  obtain ⟨_, -, hgroup⟩ := List.mem_flatMap.1 (mem_firsts.1 hgroup)
  have hmem := (List.mem_filter.1 hgroup).1
  have htwo := Config.two_le_length hc hmem
  have hne : compositeName group ≠ key := by
    rintro rfl
    rw [mentions_trim (mentions_compositeName htwo)] at hsolid
    cases hsolid
  rw [hT, refreshGroup, attributeRows_eq_nil h hne]
  simp only [eraseAll, List.foldl_nil]
  rw [compositesOf_eq_nil h htwo (Config.nodup_of_mem hc hmem)]
  rfl

theorem attributesSet_only (h : T.AttributesHave (· = a)) (hc : c.Valid)
    (hsolid : Text.mentions compositeDelimiter (Text.trim a.key) = false) :
    a.row t ∈ T.attributesSet c t a.documentId [a] ∧
      (T.attributesSet c t a.documentId [a]).AttributesHave (· = a) := by
  have hkeys : attributeKeys [a] = [a.key] := by
    simp [attributeKeys, distinct, sortBy, insertBy, firsts, firstsBy]
  have hset : (T.setAttribute t a.documentId a.key [a]).AttributesHave (· = a) :=
    (h.eraseAll _).putAttributes (by simp)
  have hrefresh : (T.setAttribute t a.documentId a.key [a]).refreshComposites c t a.documentId
      [a.key] = _ :=
    refreshComposites_eq_self (fun row hrow b hb => by rw [hset row hrow b hb]) hc hsolid [a.key]
  have heq : T.attributesSet c t a.documentId [a] = T.setAttribute t a.documentId a.key [a] := by
    simpa [attributesSet, setAttributes, hkeys] using hrefresh
  rw [heq]
  exact ⟨mem_put.2 (.inl rfl), hset⟩

theorem mem_attributesOf_only (h : T.Keeps t) (hmem : a.row t ∈ T) (honly : T.AttributesHave (· = a))
    {b : Attribute} : b ∈ T.attributesOf t id key ↔ b = a ∧ id = a.documentId ∧ key = a.key := by
  rw [mem_attributesOf h]
  constructor
  · rintro ⟨hrow, rfl, rfl⟩
    obtain rfl := honly _ hrow b rfl
    exact ⟨rfl, rfl, rfl⟩
  · rintro ⟨rfl, rfl, rfl⟩
    exact ⟨hmem, rfl, rfl⟩

end Table

namespace Store

variable {c : Config} {tenants : Tenant → Prop} {t : Tenant} {requests : List Request}
  {criteria : Criteria} {key lowText highText : String} {low high v : Binary64}

theorem finite_run (hapart : ∀ t u, tenants t → tenants u → u ≠ t → u.Apart t)
    (hrequests : ∀ r ∈ requests, tenants r.tenant) (name : String) (maxBatchSize : Nat)
    (clock : Clock) :
    (run c (fresh name maxBatchSize clock) requests).2.table.AttributesHave IsFinite := by
  have hjoin (t : Tenant) : Table.JoinsWithin IsFinite c t :=
    fun T _ id group _ a ha => Table.isFinite_of_mem_compositesOf ha
  refine attributesHave_run hapart hjoin hrequests (fun r _ id attributes _ hissues a ha => ?_)
    (filedBy_fresh name maxBatchSize clock tenants)
    (attributesHave_fresh IsFinite name maxBatchSize clock)
  exact isFinite_of_issues (List.flatMap_eq_nil_iff.1 hissues a ha)

def measured (key : String) (v : Binary64) : Attribute := ⟨"p", key, .number v, "u", ⟨1, 0⟩⟩

def measure (t : Tenant) (key : String) (v : Binary64) : List Request :=
  [⟨t, ⟨0⟩, .saveDocument paper⟩, ⟨t, ⟨0⟩, .setAttributes "p" [measured key v]⟩]

theorem issues_measured (hblank : Text.trim key ≠ "")
    (hsolid : Text.mentions compositeDelimiter (Text.trim key) = false) (hv : v.isFinite) :
    (measured key v).issues = [] := by
  have huser : Text.allBlank "u" = false := by decide
  simp [issues, measured, hblank, hsolid, hv, onlyIf, AttributeValue.isComposite, huser]

theorem tenant_of_measure {r : Request} (h : r ∈ measure t key v) : r.tenant = t := by
  simp only [measure, List.mem_cons, List.not_mem_nil, or_false] at h
  rcases h with rfl | rfl <;> rfl

theorem only_measured_of_save (hc : c.Valid) (key : String) (v : Binary64) (name : String)
    (maxBatchSize : Nat) (clock : Clock) :
    (run c (fresh name maxBatchSize clock) [⟨t, ⟨0⟩, .saveDocument paper⟩]).2.table.AttributesHave
      (· = measured key v) := by
  have hjoin (t : Tenant) : Table.JoinsWithin (· = measured key v) c t := by
    intro T hT id group hgroup a ha
    have hkey : T.AttributesHave (·.key = key) := fun row hrow b hb => by
      rw [hT row hrow b hb]
      rfl
    rw [Table.compositesOf_eq_nil hkey (Config.two_le_length hc hgroup)
      (Config.nodup_of_mem hc hgroup)] at ha
    cases ha
  refine attributesHave_run (Tenant.apart_of_eq t) hjoin (by simp) (fun r hr id attributes hset => ?_)
    (filedBy_fresh name maxBatchSize clock _) (attributesHave_fresh _ name maxBatchSize clock)
  rw [List.mem_singleton.1 hr] at hset
  cases hset

theorem run_measure (s : Store) : (run c s (measure t key v)).2 =
    ((run c s [⟨t, ⟨0⟩, .saveDocument paper⟩]).2.step c
      ⟨t, ⟨0⟩, .setAttributes "p" [measured key v]⟩).2 := by
  simp only [measure, run_cons, run_nil]

section

variable (hc : c.Valid) (hblank : Text.trim key ≠ "")
  (hsolid : Text.mentions compositeDelimiter (Text.trim key) = false) (hv : v.isFinite)
  {maxBatchSize : Nat} (hmax : 0 < maxBatchSize) (clock : Clock)

include hc hblank hsolid hv hmax

theorem mem_attributesOf_measure (id other : String) (a : Attribute) :
    a ∈ (run c (fresh c.documentsTable maxBatchSize clock) (measure t key v)).2.table.attributesOf t
      id other ↔ a = measured key v ∧ id = "p" ∧ other = key := by
  have hrequests : ∀ r ∈ measure t key v, r.tenant = t := fun _ => tenant_of_measure
  have hready := ready_run c hmax clock (Tenant.apart_of_eq t) hrequests rfl
  obtain ⟨hmem, honly⟩ := Table.attributesSet_only (t := t)
    (only_measured_of_save (t := t) hc key v c.documentsTable maxBatchSize clock) hc hsolid
  have hlive := document?_of_save (c := c) t c.documentsTable maxBatchSize clock ⟨0⟩
  have hissues : [measured key v].flatMap Attribute.issues = [] := by
    rw [List.flatMap_singleton, issues_measured hblank hsolid hv]
  obtain ⟨n, hn⟩ := table_of_set (c := c) hlive hissues ⟨0⟩
  rw [run_measure] at hready ⊢
  have hkeeps := hready.sound.keeps
  rw [hn] at hkeeps ⊢
  exact Table.mem_attributesOf_only hkeeps hmem honly

theorem mem_attributesOf_measured : measured key v ∈
    (run c (fresh c.documentsTable maxBatchSize clock) (measure t key v)).2.table.attributesOf t "p"
      key :=
  (mem_attributesOf_measure hc hblank hsolid hv hmax clock _ _ _).2 ⟨rfl, rfl, rfl⟩

theorem holdsNumbers_measure :
    (run c (fresh c.documentsTable maxBatchSize clock) (measure t key v)).2.table.HoldsNumbers t
      key := by
  intro id a ha
  rw [((mem_attributesOf_measure hc hblank hsolid hv hmax clock id key a).1 ha).1]
  exact ⟨v, rfl⟩

end

/-- After any requests of tenants side by side that leave numbers only under the key, the search finds
exactly the documents with a number between the bounds. -/
def SearchesNumbers (c : Config) (tenants : Tenant → Prop) (t : Tenant) (criteria : Criteria)
    (key : String) (low high : Binary64) : Prop :=
  ∀ maxBatchSize clock requests, 0 < maxBatchSize → (∀ r ∈ requests, tenants r.tenant) →
    let s := (run c (fresh c.documentsTable maxBatchSize clock) requests).2
    s.table.HoldsNumbers t key → s.Finds c t criteria (s.table.HasNumberWithin t key low high)

section

variable (hc : c.Valid) (hapart : ∀ t u, tenants t → tenants u → u ≠ t → u.Apart t) (ht : tenants t)
  (hcheck : Criteria.check c.maxCombinations [.between key lowText highText] = .ok criteria)
  (hlow : Decimal.read? (Text.trim lowText) = some low)
  (hhigh : Decimal.read? (Text.trim highText) = some high)

include hc hapart ht hcheck hlow hhigh

theorem searchesNumbers_of_comparesNumbers (h : low.ComparesNumbers high) :
    SearchesNumbers c tenants t criteria key low high := by
  intro maxBatchSize clock requests hmax hrequests s hnumbers
  have hready : s.Ready c t := ready_run c hmax clock hapart hrequests ht
  have hfinite : s.table.AttributesHave IsFinite :=
    finite_run hapart hrequests c.documentsTable maxBatchSize clock
  refine (finds_iff hready hcheck rfl hc).2 fun d => ?_
  exact Table.hasNumberWithin_iff_matches hready.sound.keeps hfinite hnumbers h rfl fun text =>
    Criteria.accepts_between_iff hcheck hlow hhigh

/-- A document with one number shows whether its text is between the bounds when it is. -/
theorem comparesNumbers_of_searchesNumbers (h : SearchesNumbers c tenants t criteria key low high) :
    low.ComparesNumbers high := by
  intro v hv
  obtain ⟨hblank, hsolid⟩ : Text.trim key ≠ "" ∧
      Text.mentions compositeDelimiter (Text.trim key) = false :=
    Criteria.solid_of_check hcheck (.between key lowText highText) List.mem_cons_self
  have hrequests : ∀ r ∈ measure t key v, tenants r.tenant := fun r hr => by
    rw [tenant_of_measure hr]
    exact ht
  have hready := ready_run c Nat.one_pos ⟨0⟩ hapart hrequests ht
  have hfinds := h 1 ⟨0⟩ _ Nat.one_pos hrequests
  have hnumbers := holdsNumbers_measure (t := t) hc hblank hsolid hv Nat.one_pos ⟨0⟩
  have hvalue := mem_attributesOf_measured (t := t) hc hblank hsolid hv Nat.one_pos ⟨0⟩
  have hvalues := mem_attributesOf_measure (t := t) hc hblank hsolid hv Nat.one_pos ⟨0⟩ "p" key
  -- what follows is about the one document and the one number that the table holds
  generalize (run c (fresh c.documentsTable 1 ⟨0⟩) (measure t key v)).2 = s
    at hready hfinds hnumbers hvalue hvalues
  obtain ⟨d, hd⟩ := Option.isSome_iff_exists.1 (hready.sound.isSome_document?_of_value
    ((Table.mem_attributesOf hready.sound.keeps).1 hvalue).1)
  have hid : d.id = "p" := Table.id_of_document? hready.sound.keeps hd
  have hd' : s.table.document? t "p" = some d := hd
  have hwithin : s.table.HasNumberWithin t key low high d ↔ keyNumber.rounded low ≤
      keyNumber.rounded v ∧ keyNumber.rounded v ≤ keyNumber.rounded high := by
    simp [Table.HasNumberWithin, hid, hd', hvalues, measured]
  have hmatches : s.table.Matches t (.between key lowText highText) d ↔
      keyNumber.render low ≤ keyNumber.render v ∧ keyNumber.render v ≤ keyNumber.render high := by
    rw [← Criteria.accepts_between_iff hcheck hlow hhigh]
    simp [Table.Matches, hid, hd', hvalues, measured, Criterion.between, AttributeValue.indexText]
  rw [← hwithin, ← hmatches]
  exact ((finds_iff hready hcheck rfl hc).1 (hfinds hnumbers) d).symm

end

/-- A search for numbers between two bounds finds exactly the documents that have one, after any requests
of tenants side by side, if and only if the texts between the bounds are those of the numbers between
them. For bounds whose digits fit their places that is so for faithful ranges and no others. -/
theorem number_search_exact_iff (hc : c.Valid)
    (hapart : ∀ t u, tenants t → tenants u → u ≠ t → u.Apart t) (ht : tenants t)
    (hcheck : Criteria.check c.maxCombinations [.between key lowText highText] = .ok criteria)
    (hlow : Decimal.read? (Text.trim lowText) = some low)
    (hhigh : Decimal.read? (Text.trim highText) = some high) :
    (SearchesNumbers c tenants t criteria key low high ↔ low.ComparesNumbers high) ∧
      (low.FitsKey → high.FitsKey →
        (SearchesNumbers c tenants t criteria key low high ↔ low.IsFaithful high)) := by
  have hcompares : SearchesNumbers c tenants t criteria key low high ↔ low.ComparesNumbers high :=
    ⟨comparesNumbers_of_searchesNumbers hc hapart ht hcheck hlow hhigh,
      searchesNumbers_of_comparesNumbers hc hapart ht hcheck hlow hhigh⟩
  obtain ⟨hlow', hhigh'⟩ := Criteria.isFinite_of_check hcheck hlow hhigh
  exact ⟨hcompares, fun hfl hfh =>
    hcompares.trans (Binary64.comparesNumbers_iff hlow' hhigh' hfl hfh)⟩

def half : Binary64 := .ofNat false 0x3FE0000000000000

def widest : Binary64 := .ofNat false 0x42D6BCC41E900000

def one (negative : Bool) : Binary64 := .ofNat negative 0x3FF0000000000000

def two (negative : Bool) : Binary64 := .ofNat negative 0x4000000000000000

def three (negative : Bool) : Binary64 := .ofNat negative 0x4008000000000000

theorem sizes_found :
    let criteria : Criteria := ⟨[.between "size" "0.5" "1e14"]⟩
    let s := (run {} (fresh "documents" 1 ⟨0⟩) (measure .default "size" (two false))).2
    Criteria.check 100 criteria.list = .ok criteria ∧ Decimal.read? "0.5" = some half ∧
      Decimal.read? "1e14" = some widest ∧ half.FitsKey ∧ widest.FitsKey ∧ half.IsFaithful widest ∧
      SearchesNumbers {} (· = .default) .default criteria "size" half widest ∧
      s.table.HoldsNumbers .default "size" ∧
      (s.step {} ⟨.default, ⟨0⟩, .search criteria {}⟩).1 = .ok (.documentPage { items := [paper] }) := by
  intro criteria s
  have hcheck : Criteria.check 100 criteria.list = .ok criteria := by decide
  have hlow : Decimal.read? "0.5" = some half := by decide +kernel
  have hhigh : Decimal.read? "1e14" = some widest := by decide +kernel
  have hlowFits : half.FitsKey := Binary64.fitsKey_iff.2 (by decide +kernel)
  have hhighFits : widest.FitsKey := Binary64.fitsKey_iff.2 (by decide +kernel)
  have hfaithful : half.IsFaithful widest := by
    refine .above (Binary64.rounded_pos_iff.2 (by decide +kernel)) fun _ => ?_
    rw [FixedPoint.floor_rounded]
    decide +kernel
  have hexact := (number_search_exact_iff (c := {}) (by decide) (Tenant.apart_of_eq .default) rfl
    hcheck hlow hhigh).2 hlowFits hhighFits
  exact ⟨hcheck, hlow, hhigh, hlowFits, hhighFits, hfaithful, hexact.2 hfaithful,
    holdsNumbers_measure (c := {}) (by decide) (by decide) (by decide) (by decide) Nat.one_pos ⟨0⟩,
    by decide +kernel⟩

/-- Behind a minus sign the order of texts is that of the magnitudes. -/
theorem negative_size_missed :
    let criteria : Criteria := ⟨[.between "size" "-3" "-1"]⟩
    let s := (run {} (fresh "documents" 1 ⟨0⟩) (measure .default "size" (two true))).2
    Criteria.check 100 criteria.list = .ok criteria ∧ Decimal.read? "-3" = some (three true) ∧
      Decimal.read? "-1" = some (one true) ∧ s.table.HoldsNumbers .default "size" ∧
      s.table.HasNumberWithin .default "size" (three true) (one true) paper ∧
      (s.step {} ⟨.default, ⟨0⟩, .search criteria {}⟩).1 = .ok (.documentPage { items := [] }) ∧
      ¬s.Finds {} .default criteria
        (s.table.HasNumberWithin .default "size" (three true) (one true)) := by
  intro criteria s
  have hvalue : measured "size" (two true) ∈ s.table.attributesOf .default "p" "size" :=
    mem_attributesOf_measured (c := {}) (by decide) (by decide) (by decide) (by decide) Nat.one_pos ⟨0⟩
  have hwithin : s.table.HasNumberWithin .default "size" (three true) (one true) paper := by
    refine ⟨by decide +kernel, _, hvalue, _, rfl, ?_, ?_⟩
    · exact FixedPoint.rounded_le_iff.2 (by decide +kernel)
    · exact FixedPoint.rounded_le_iff.2 (by decide +kernel)
  have hanswer : (s.step {} ⟨.default, ⟨0⟩, .search criteria {}⟩).1 =
      .ok (.documentPage { items := [] }) := by decide +kernel
  refine ⟨by decide, by decide +kernel, by decide +kernel, ?_, hwithin, hanswer, fun hfinds => ?_⟩
  · exact holdsNumbers_measure (c := {}) (by decide) (by decide) (by decide) (by decide) Nat.one_pos ⟨0⟩
  · exact List.not_mem_nil ((hfinds.mem_iff (lists_of_page hanswer rfl) paper).2 hwithin)

end Store

end Cabinet
