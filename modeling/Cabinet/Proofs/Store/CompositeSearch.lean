import Cabinet.Proofs.Criteria.Acceptance
import Cabinet.Proofs.Store.Composites
import Cabinet.Proofs.Store.Provenance
import Cabinet.Proofs.Store.Searching
import Cabinet.Proofs.Text.Joined

/-! Searching for documents by the values of several attributes together. Main statement: such a
search answers with documents that have all the values exactly when the values are separable. -/

namespace Cabinet

namespace Attribute

variable {group : List String} {texts texts' : String → List String}

/-- Each value under the name of a group is joined from values of its keys. -/
def Covers (group : List String) (texts : String → List String) : Prop :=
  ∀ v ∈ texts (compositeName group), v ∈ joined (group.map texts)

theorem Covers.mono (h : Covers group texts)
    (hname : ∀ v ∈ texts' (compositeName group), v ∈ texts (compositeName group))
    (hkeys : ∀ key ∈ group, ∀ v ∈ texts key, v ∈ texts' key) : Covers group texts' :=
  fun v hv => joined_mono hkeys (h v (hname v hv))

end Attribute

namespace Table

open Attribute

variable {t : Tenant} {T T' : Table} {group : List String} {m : String} {op : Operation}

/-- The composite values of a document have components, those of soft-deleted ones among those that
are soft-deleted. -/
structure Covered (t : Tenant) (group : List String) (T : Table) (m : String) : Prop where
  live : Covers group (T.indexTexts t m)
  deleted : Covers group (T.deletedTexts t m)

theorem Covered.counted (h : T.Covered t group m) (n : Nat) :
    Table.Covered t group { T with batchCalls := n } m :=
  ⟨h.live, h.deleted⟩

/-- No request leaves composite values without components, not even one that parts them. -/
theorem Covered.step (h : T.Covered t group m) (hstep : ValueStep t group T T' m op) :
    T'.Covered t group m := by
  have kept (hdeleted : ∀ key v, v ∈ T'.deletedTexts t m key ↔ v ∈ T.deletedTexts t m key) :
      Covers group (T'.deletedTexts t m) :=
    h.deleted.mono (fun v => (hdeleted _ v).1) fun key _ v => (hdeleted key v).2
  cases hstep with
  | same live deleted =>
    obtain ⟨hname, hkeys⟩ := List.forall_mem_cons.1 live
    exact ⟨h.live.mono (fun v => (hname v).1) fun key hkey v => (hkeys key hkey v).2, kept deleted⟩
  | rebuilt live deleted => exact ⟨fun v => (live v).1, kept deleted⟩
  | unnamed live none deleted =>
    refine ⟨fun v hv => ?_, kept deleted⟩
    rw [none] at hv
    cases hv
  | removed live deleted =>
    refine ⟨fun v hv => ?_, fun v hv => ?_⟩
    · rw [live] at hv
      cases hv
    · rcases (deleted _ v).1 hv with hv | ⟨hsoft, hv⟩
      · exact joined_mono (fun key _ w hw => (deleted key w).2 (.inl hw)) (h.deleted v hv)
      · exact joined_mono (fun key _ w hw => (deleted key w).2 (.inr ⟨hsoft, hw⟩)) (h.live v hv)
  | restored hroot hm live deleted =>
    refine ⟨fun v hv => ?_, fun v hv => ?_⟩
    · rcases (live _ v).1 hv with hv | hv
      · exact joined_mono (fun key _ w hw => (live key w).2 (.inl hw)) (h.live v hv)
      · exact joined_mono (fun key _ w hw => (live key w).2 (.inr hw)) (h.deleted v hv)
    · rw [deleted] at hv
      cases hv

end Table

namespace Store

open Attribute

variable {tenants : Tenant → Prop} {t : Tenant} {c : Config} {requests : List Request}
  {group : List String}

theorem covered_run (hc : c.Valid) (hgroup : group ∈ c.compositeKeys) (hown : c.IsApart group)
    (name : String) (maxBatchSize : Nat) (clock : Clock)
    (hapart : ∀ t u, tenants t → tenants u → u ≠ t → u.Apart t) (ht : tenants t)
    (hrequests : ∀ r ∈ requests, tenants r.tenant ∧ r.operation.SetsPlain) (m : String) :
    (run c (fresh name maxBatchSize clock) requests).2.table.Covered t group m := by
  refine (legible_induction (I := fun T => ∀ m, T.Covered t group m) hapart (fun m => ?_)
    (fun r hr T n hlegible hT m => ?_) hrequests).2 m
  · have hnone := not_mem_fresh name maxBatchSize clock
    refine ⟨fun v hv => ?_, fun v hv => ?_⟩
    · rw [Table.indexTexts_eq_nil hnone] at hv
      cases hv
    · rw [Table.deletedTexts_eq_nil hnone] at hv
      cases hv
  · obtain ⟨hr', hplain⟩ := hrequests r hr
    by_cases hmine : r.tenant = t
    · have hlegible := hlegible t ht
      rw [hmine]
      exact ((hT m).step
        (Operation.valueStep_effect hlegible hc hown hgroup r.operation hplain m)).counted n
    · -- another tenant changes no values
      have hedits := Operation.edits_effect (hlegible _ hr').keeps c r.operation
      have hsame : T.SameValues t _ m :=
        hedits.sameValues_of_apart (hapart t _ ht hr' hmine) (hlegible t ht).keeps
      exact ((hT m).step (hsame.valueStep r.operation)).counted n

end Store

namespace Criteria

open Attribute

variable {pairs : List (String × String)} {limit : Nat}

def asking (pairs : List (String × String)) : Criteria :=
  ⟨pairs.map fun p => { key := p.1, eq := some p.2 }⟩

theorem keys_asking (pairs : List (String × String)) : (asking pairs).keys = pairs.map Prod.fst := by
  simp [keys, asking]

theorem compile_asking (pairs : List (String × String)) : (asking pairs).compile =
    { key := compositeName (pairs.map Prod.fst)
      eq := some (Text.joinWith compositeDelimiter (pairs.map Prod.snd)) } := by
  have heqs : (asking pairs).eqValues = pairs.map Prod.snd := by
    simp [eqValues, asking, List.filterMap_map]
  have hlast : (asking pairs).list.getLast?.bind (·.range) = none ∧
      (asking pairs).list.getLast?.bind (·.beginsWith) = none := by
    simp only [asking, List.getLast?_map]
    cases pairs.getLast? <;> exact ⟨rfl, rfl⟩
  have hchoice : (asking pairs).list.any (·.eqOr.isSome) = false := by simp [asking]
  simp only [compile, hchoice, hlast, heqs, keys_asking]
  rfl

theorem plan_asking (pairs : List (String × String)) : (asking pairs).compile.plan =
    .single (.equals (Text.joinWith compositeDelimiter (pairs.map Prod.snd))) := by
  rw [compile_asking]
  rfl

theorem solid_of_check {criteria : Criteria} {list : List Criterion}
    (h : check limit list = .ok criteria) : ∀ x ∈ list, Text.trim x.key ≠ "" ∧
      Text.mentions compositeDelimiter (Text.trim x.key) = false := by
  intro x hx
  have hcomplete := (wellFormed_of_check h).complete x hx
  exact ⟨hcomplete.named, hcomplete.plain⟩

theorem solid_of_check_asking (h : check limit (asking pairs).list = .ok (asking pairs)) :
    ∀ key ∈ pairs.map Prod.fst, Text.trim key ≠ "" ∧
      Text.mentions compositeDelimiter (Text.trim key) = false := by
  intro key hkey
  obtain ⟨p, hp, rfl⟩ := List.mem_map.1 hkey
  let x : Criterion := { key := p.1, eq := some p.2 }
  have hmem : x ∈ (asking pairs).list := List.mem_map.2 ⟨p, hp, rfl⟩
  exact solid_of_check h x hmem

theorem mem_compositeKeys_of_hasGroup {c : Config} (h : c.hasGroup (asking pairs).keys) :
    pairs.map Prod.fst ∈ c.compositeKeys := by
  rw [Config.hasGroup, decide_eq_true_iff, keys_asking] at h
  exact h

end Criteria

namespace Store

open Attribute

variable {c : Config} {t : Tenant} {pairs : List (String × String)}

def paper : Document where
  id := "p"
  userId := "u"
  inserted := ⟨1704067200, 0⟩
  modified := ⟨1704067200, 0⟩

def describe (t : Tenant) (pairs : List (String × String)) : List Request :=
  [⟨t, ⟨0⟩, .saveDocument paper⟩,
    ⟨t, ⟨0⟩, .setAttributes "p" (pairs.map fun p => valued p.1 p.2)⟩]

theorem issues_valued {key : String} (hblank : Text.trim key ≠ "")
    (hsolid : Text.mentions compositeDelimiter (Text.trim key) = false) (value : String) :
    (valued key value).issues = [] := by
  have huser : Text.allBlank "u" = false := by decide
  simp [issues, valued, hblank, hsolid, onlyIf, AttributeValue.isComposite, huser]

theorem setsPlain_describe (hplain : ∀ key ∈ pairs.map Prod.fst, '#' ∉ key.toList) :
    ∀ r ∈ describe t pairs, r.tenant = t ∧ r.operation.SetsPlain := by
  intro r hr
  rcases List.mem_cons.1 hr with rfl | hr
  · exact ⟨rfl, trivial⟩
  · rw [List.mem_singleton.1 hr]
    refine ⟨rfl, fun a ha => ?_⟩
    obtain ⟨p, hp, rfl⟩ := List.mem_map.1 ha
    exact hplain p.1 (List.mem_map_of_mem hp)

theorem table_of_save {s : Store} {d : Document} (hissues : d.issues = [])
    (hparent : ∀ p ∈ d.parent, (s.table.document? t p).isSome) (clock : Clock) :
    ∃ n, (s.step c ⟨t, clock, .saveDocument d⟩).2.table =
      { s.table.saved t d with batchCalls := n } := by
  have hfault : s.table.saveFault? t d = none := by
    cases hd : d.parent with
    | none => simp [Table.saveFault?, hissues, hd]
    | some p => simp [Table.saveFault?, hissues, hd, hparent p hd]
  have heffect : (Operation.saveDocument d).effect c t s.table = s.table.saved t d := by
    simp [Operation.effect, hfault]
  rw [← heffect]
  exact table_step c s ⟨t, clock, .saveDocument d⟩

theorem document?_of_save (t : Tenant) (name : String) (maxBatchSize : Nat) (clock clock' : Clock) :
    ((run c (fresh name maxBatchSize clock) [⟨t, clock', .saveDocument paper⟩]).2.table.document?
      t "p").isSome := by
  obtain ⟨n, hn⟩ := table_of_save (c := c) (t := t) (s := fresh name maxBatchSize clock) (d := paper)
    (by decide) nofun clock'
  have htable : (run c (fresh name maxBatchSize clock)
      [⟨t, clock', .saveDocument paper⟩]).2.table = _ := hn
  rw [htable]
  exact Option.isSome_of_eq_some
    (Table.document?_saved (keeps_fresh name maxBatchSize clock t) paper "p")

theorem table_of_set {s : Store} {id : String} {attributes : List Attribute}
    (hlive : (s.table.document? t id).isSome) (hissues : attributes.flatMap Attribute.issues = [])
    (clock : Clock) : ∃ n, (s.step c ⟨t, clock, .setAttributes id attributes⟩).2.table =
      { s.table.attributesSet c t id attributes with batchCalls := n } := by
  have heffect : (Operation.setAttributes id attributes).effect c t s.table =
      s.table.attributesSet c t id attributes := by
    simp [Operation.effect, Table.metadataFault?, hlive, hissues]
  rw [← heffect]
  exact table_step c s ⟨t, clock, .setAttributes id attributes⟩

theorem table_of_describe (hsolid : ∀ key ∈ pairs.map Prod.fst, Text.trim key ≠ "" ∧
      Text.mentions compositeDelimiter (Text.trim key) = false) (name : String)
    (maxBatchSize : Nat) (clock : Clock) :
    ∃ n, (run c (fresh name maxBatchSize clock) (describe t pairs)).2.table =
      { (run c (fresh name maxBatchSize clock)
          [⟨t, ⟨0⟩, .saveDocument paper⟩]).2.table.attributesSet c t "p"
            (pairs.map fun p => valued p.1 p.2) with batchCalls := n } := by
  refine table_of_set (document?_of_save t name maxBatchSize clock ⟨0⟩) ?_ ⟨0⟩
  refine List.flatMap_eq_nil_iff.2 fun a ha => ?_
  obtain ⟨p, hp, rfl⟩ := List.mem_map.1 ha
  obtain ⟨hblank, hsolid⟩ := hsolid p.1 (List.mem_map_of_mem hp)
  exact issues_valued hblank hsolid p.2

theorem values_of_describe (hc : c.Valid) (hgroup : pairs.map Prod.fst ∈ c.compositeKeys)
    (hown : c.IsApart (pairs.map Prod.fst)) (hplain : ∀ key ∈ pairs.map Prod.fst, '#' ∉ key.toList)
    (hsolid : ∀ key ∈ pairs.map Prod.fst, Text.trim key ≠ "" ∧
      Text.mentions compositeDelimiter (Text.trim key) = false) (name : String)
    (maxBatchSize : Nat) (clock : Clock) :
    let T := (run c (fresh name maxBatchSize clock) (describe t pairs)).2.table
    (T.document? t "p").isSome ∧ Mirrors (pairs.map Prod.fst) (T.indexTexts t "p") ∧
      ∀ p ∈ pairs, ∀ v, v ∈ T.indexTexts t "p" p.1 ↔ ∃ q ∈ pairs, q.1 = p.1 ∧ q.2 = v := by
  intro T
  let attributes : List Attribute := pairs.map fun p => valued p.1 p.2
  let s : Store := (run c (fresh name maxBatchSize clock) [⟨t, ⟨0⟩, .saveDocument paper⟩]).2
  have hlive : (s.table.document? t "p").isSome := document?_of_save t name maxBatchSize clock ⟨0⟩
  have hlegible : s.table.Legible t := by
    refine legible_run (Tenant.apart_of_eq t) c name maxBatchSize clock (fun r hr => ?_) rfl
    rw [List.mem_singleton.1 hr]
    exact ⟨rfl, trivial⟩
  obtain ⟨n, hT⟩ : ∃ n, T = { s.table.attributesSet c t "p" attributes with batchCalls := n } :=
    table_of_describe hsolid name maxBatchSize clock
  have hplain' : ∀ a ∈ attributes, a.IsPlain := by
    intro a ha
    obtain ⟨p, hp, rfl⟩ := List.mem_map.1 ha
    exact hplain p.1 (List.mem_map_of_mem hp)
  have hkeys : ∀ key ∈ pairs.map Prod.fst, ∃ a ∈ attributes, a.key = key := by
    intro key hkey
    obtain ⟨p, hp, rfl⟩ := List.mem_map.1 hkey
    exact ⟨valued p.1 p.2, List.mem_map_of_mem hp, rfl⟩
  obtain ⟨hmirrors, hvalues⟩ := Table.values_attributesSet hlegible hown hgroup
    (Config.ne_nil_of_mem hc hgroup) hplain' hkeys "p"
  have hedits : s.table.Edits (Row.IsMetadataOf t "p") _ :=
    (Table.edits_attributesSet hlegible.keeps c attributes).metadata
  have hsame := (hedits.mono fun _ hrow => hrow.isAside).document?_of_aside hlegible.keeps "p"
  rw [hT]
  refine ⟨hsame.symm ▸ hlive, hmirrors, fun p hp v => ?_⟩
  refine (hvalues p.1 (List.mem_map_of_mem hp) v).trans ?_
  simp [attributes, valued, AttributeValue.indexText]

variable {tenants : Tenant → Prop}

/-- Every document on any page of a search for several values has each of them. -/
def AnswersExactly (c : Config) (t : Tenant) (pairs : List (String × String)) (s : Store) : Prop :=
  ∀ clock request page, (s.step c ⟨t, clock, .search (.asking pairs) request⟩).1 =
    .ok (.documentPage page) → ∀ d ∈ page.items, ∀ p ∈ pairs, p.2 ∈ s.table.indexTexts t d.id p.1

theorem answersExactly_of_covered (h : s.table.Keeps t)
    (hgroup : c.hasGroup (Criteria.asking pairs).keys)
    (hcovered : ∀ m, s.table.Covered t (pairs.map Prod.fst) m)
    (hseparable : ∀ values, values.length = (pairs.map Prod.snd).length →
      Text.joinWith compositeDelimiter values =
        Text.joinWith compositeDelimiter (pairs.map Prod.snd) → values = pairs.map Prod.snd) :
    AnswersExactly c t pairs s := by
  intro clock request page hanswer d hd
  obtain ⟨v, hv, hjoined⟩ := exists_text_of_search h (Criteria.plan_asking pairs) (fun _ => hgroup)
    hanswer d hd
  rw [Criteria.compile_asking] at hv
  obtain ⟨values, hvalues, hsame⟩ := mem_joined.1 ((hcovered d.id).live v hv)
  rw [of_decide_eq_true hjoined] at hsame
  have hlength : values.length = (pairs.map Prod.snd).length := by
    rw [← hvalues.length_eq, List.length_map, List.length_map]
  rw [hseparable values hlength hsame, List.forall₂_map_left_iff, List.forall₂_map_right_iff,
    List.forall₂_same] at hvalues
  exact hvalues

theorem owner_of_describe {name : String} {maxBatchSize : Nat} {clock : Clock} {id : String}
    (h : (run c (fresh name maxBatchSize clock) (describe t pairs)).2.table.Owns id) : id = "p" := by
  have htenant : ∀ r ∈ describe t pairs, r.tenant = t := by
    simp [describe]
  obtain ⟨r, hr, d, hsave, hid⟩ := saved_of_owns c name maxBatchSize clock htenant h
  rcases List.mem_cons.1 hr with rfl | hr
  · obtain rfl : paper = d := Operation.saveDocument.inj hsave
    exact hid.symm
  · rw [List.mem_singleton.1 hr] at hsave
    cases hsave

section

variable {others : List (String × String)} (hc : c.Valid)
  (hasked : c.hasGroup (Criteria.asking pairs).keys) (hown : c.IsApart (pairs.map Prod.fst))
  (hplain : ∀ key ∈ pairs.map Prod.fst, '#' ∉ key.toList)
  (hsolid : ∀ key ∈ pairs.map Prod.fst, Text.trim key ≠ "" ∧
    Text.mentions compositeDelimiter (Text.trim key) = false)
  (hkeys : others.map Prod.fst = pairs.map Prod.fst)
  (hsame : Text.joinWith compositeDelimiter (others.map Prod.snd) =
    Text.joinWith compositeDelimiter (pairs.map Prod.snd))

include hc hasked hown hplain hsolid hkeys hsame

theorem exists_page_of_describe :
    let s := (run c (fresh c.documentsTable 1 ⟨0⟩) (describe t others)).2
    ∃ page, (s.step c ⟨t, ⟨0⟩, .search (.asking pairs) {}⟩).1 = .ok (.documentPage page) ∧
      ∃ d ∈ page.items, d.id = "p" := by
  intro s
  have hgroup := Criteria.mem_compositeKeys_of_hasGroup hasked
  rw [← hkeys] at hgroup hown hplain hsolid
  obtain ⟨hlive, hmirrors, hvalues⟩ := values_of_describe (t := t) hc hgroup hown hplain hsolid
    c.documentsTable 1 ⟨0⟩
  have hsettings : s.table.settings = (fresh c.documentsTable 1 ⟨0⟩).table.settings :=
    settings_run c _ (describe t others)
  have hmax : s.table.maxBatchSize = 1 := congrArg (fun x => x.2.1) hsettings
  have hkeeps : s.table.Keeps t :=
    (legible_run (Tenant.apart_of_eq t) c _ _ _ (setsPlain_describe hplain) rfl).keeps
  have hjoined : Text.joinWith compositeDelimiter (pairs.map Prod.snd) ∈
      s.table.indexTexts t "p" (Criteria.asking pairs).compile.key := by
    rw [Criteria.compile_asking, ← hkeys, hmirrors, mem_joined]
    refine ⟨others.map Prod.snd, ?_, hsame⟩
    rw [List.forall₂_map_left_iff, List.forall₂_map_right_iff, List.forall₂_same]
    exact fun q hq => (hvalues q hq q.2).2 ⟨q, hq, rfl, rfl⟩
  obtain ⟨page, hanswer, m, ⟨v, hv, -⟩, hfound⟩ := exists_search hkeeps (Criteria.plan_asking pairs)
    (fun _ => hasked) (congrArg Prod.fst hsettings) (by omega) hjoined (decide_eq_true rfl) ⟨0⟩ none
  -- no other document has any row
  have hp : m = "p" := by
    obtain ⟨a, ha, hid, -⟩ := (Table.mem_indexTexts hkeeps).1 hv
    exact owner_of_describe ⟨a.row t, ha, congrArg some hid⟩
  rw [hp] at hfound
  obtain ⟨d, hd⟩ := Option.isSome_iff_exists.1 hlive
  exact ⟨page, hanswer, d, hfound d hd, ((Table.document?_eq_some_iff hkeeps).1 hd).2.2⟩

theorem eq_of_answersExactly (hexact : AnswersExactly c t pairs
      (run c (fresh c.documentsTable 1 ⟨0⟩) (describe t others)).2) :
    others.map Prod.snd = pairs.map Prod.snd := by
  obtain ⟨page, hanswer, d, hd, hid⟩ := exists_page_of_describe (t := t) hc hasked hown hplain hsolid
    hkeys hsame
  have hall := hexact ⟨0⟩ {} page hanswer d hd
  rw [hid] at hall
  have hgroup := Criteria.mem_compositeKeys_of_hasGroup hasked
  have hnodup := Config.nodup_of_mem hc hgroup
  rw [← hkeys] at hgroup hown hplain hsolid hnodup
  obtain ⟨-, -, hvalues⟩ := values_of_describe (t := t) hc hgroup hown hplain hsolid
    c.documentsTable 1 ⟨0⟩
  have hlength : others.length = pairs.length := by simpa using congrArg List.length hkeys
  refine List.ext_getElem (by simpa using hlength) fun i hi hi' => ?_
  rw [List.length_map] at hi hi'
  have hkey : pairs[i].1 = others[i].1 := by
    have hat := congrArg (fun keys => keys[i]?) hkeys
    simpa [hi, hi'] using hat.symm
  obtain ⟨q, hq, hqkey, hqvalue⟩ := (hvalues others[i] (List.getElem_mem hi) pairs[i].2).1
    (hkey ▸ hall pairs[i] (List.getElem_mem hi'))
  -- each key has one value
  obtain rfl : q = others[i] := List.inj_on_of_nodup_map hnodup hq (List.getElem_mem hi) hqkey
  simpa using hqvalue

end

/-- Searches for several values together answer with documents that have all of them, after any
requests of tenants side by side that set attributes with plain keys, exactly when the values are
separable. -/
theorem composite_search_exact_iff {c : Config} (hc : c.Valid) {limit : Nat}
    (hcheck : Criteria.check limit (Criteria.asking pairs).list = .ok (.asking pairs))
    (hgroup : c.hasGroup (Criteria.asking pairs).keys)
    (hname : ∀ g ∈ c.compositeKeys,
      compositeName g = compositeName (Criteria.asking pairs).keys → g = (Criteria.asking pairs).keys)
    (hplain : ∀ key ∈ (Criteria.asking pairs).keys, '#' ∉ key.toList)
    (hapart : ∀ t u, tenants t → tenants u → u ≠ t → u.Apart t) (ht : tenants t) :
    (∀ name maxBatchSize clock requests,
      (∀ r ∈ requests, tenants r.tenant ∧ r.operation.SetsPlain) →
        AnswersExactly c t pairs (run c (fresh name maxBatchSize clock) requests).2) ↔
      Text.Separable (pairs.map Prod.snd) := by
  rw [Criteria.keys_asking] at hname hplain
  have hsolid := Criteria.solid_of_check_asking hcheck
  have hmem := Criteria.mem_compositeKeys_of_hasGroup hgroup
  have htwo : 2 ≤ (pairs.map Prod.snd).length := by
    simpa using Config.two_le_length hc hmem
  have hown : c.IsApart (pairs.map Prod.fst) := by
    refine ⟨hname, fun g hg hkey => ?_⟩
    have hmentions := mentions_trim (mentions_compositeName (Config.two_le_length hc hg))
    rw [(hsolid _ hkey).2] at hmentions
    cases hmentions
  rw [Text.separable_iff htwo]
  constructor
  · intro hexact values hlength hsame
    have hlength' : (pairs.map Prod.fst).length = values.length := by
      rw [hlength, List.length_map, List.length_map]
    have hkeys : ((pairs.map Prod.fst).zip values).map Prod.fst = pairs.map Prod.fst :=
      List.map_fst_zip hlength'.le
    have hvalues : ((pairs.map Prod.fst).zip values).map Prod.snd = values :=
      List.map_snd_zip hlength'.ge
    have hresult := eq_of_answersExactly hc hgroup hown hplain hsolid hkeys (hvalues.symm ▸ hsame)
      (hexact c.documentsTable 1 ⟨0⟩ _ fun r hr => ?_)
    · rwa [hvalues] at hresult
    · obtain ⟨hr, hset⟩ := setsPlain_describe (hkeys.symm ▸ hplain) r hr
      exact ⟨hr ▸ ht, hset⟩
  · intro hseparable name maxBatchSize clock requests hrequests
    exact answersExactly_of_covered
      (legible_run hapart c name maxBatchSize clock hrequests ht).keeps hgroup
      (covered_run hc hmem hown name maxBatchSize clock hapart ht hrequests) hseparable

def memoOf2024 : List (String × String) := [("category", "memo"), ("year", "2024")]

theorem memo_search_exact : dated.Valid ∧
    Criteria.check 100 (Criteria.asking memoOf2024).list = .ok (.asking memoOf2024) ∧
    dated.hasGroup (Criteria.asking memoOf2024).keys ∧
    ∀ name maxBatchSize clock requests,
      (∀ r ∈ requests, (r.tenant = .site "north" ∨ r.tenant = .site "south") ∧
        r.operation.SetsPlain) →
      AnswersExactly dated (.site "north") memoOf2024
        (run dated (fresh name maxBatchSize clock) requests).2 := by
  have hvalid : dated.Valid := by decide
  have hcheck : Criteria.check 100 (Criteria.asking memoOf2024).list = .ok (.asking memoOf2024) := by
    decide
  have hgroup : dated.hasGroup (Criteria.asking memoOf2024).keys := by decide
  exact ⟨hvalid, hcheck, hgroup, (composite_search_exact_iff hvalid hcheck hgroup (by decide)
    (by decide) (Tenant.apart_of_sites (by decide) (by decide) (by decide)) (.inl rfl)).2 (by decide)⟩

/-- What is asked for is joined like the values that the document has. -/
theorem composite_search_finds_others :
    let c : Config := { compositeKeys := [["a", "b"]] }
    let asked := [("a", "x"), ("b", "y::z")]
    let s := (run c (fresh "documents" 100 ⟨0⟩) (describe .default [("a", "x::y"), ("b", "z")])).2
    c.Valid ∧ Criteria.check 100 (Criteria.asking asked).list = .ok (.asking asked) ∧
      (s.step c ⟨.default, ⟨0⟩, .search (.asking asked) {}⟩).1 =
        .ok (.documentPage { items := [paper] }) ∧
      s.table.indexTexts .default "p" "a" = ["x::y"] ∧ s.table.indexTexts .default "p" "b" = ["z"] ∧
      ¬AnswersExactly c .default asked s := by
  intro c asked s
  have hanswer : (s.step c ⟨.default, ⟨0⟩, .search (.asking asked) {}⟩).1 =
      .ok (.documentPage { items := [paper] }) := by
    decide +kernel
  have hvalues : s.table.indexTexts .default "p" "a" = ["x::y"] := by decide +kernel
  refine ⟨by decide, by decide, hanswer, hvalues, by decide +kernel, fun hexact => ?_⟩
  have hx := hexact ⟨0⟩ {} _ hanswer paper List.mem_cons_self ("a", "x") List.mem_cons_self
  have hnot : "x" ∉ s.table.indexTexts .default "p" "a" := by
    rw [hvalues]
    decide
  exact hnot hx

end Store

end Cabinet
