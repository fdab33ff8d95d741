import Cabinet.Proofs.Store.AttributeSearch
import Cabinet.Proofs.Store.CompositeSearch

/-! Searching with a choice between values. Main statement: the answer is the beginning of what the
searches for each combination of the values list one after the other, each document once. -/

namespace Cabinet

namespace Criteria

variable {limit : Nat} {list : List Criterion} {criteria : Criteria} {pairs : List (String × String)}

def combinations : List Criterion → List (List (String × String))
  | [] => [[]]
  | x :: rest => x.choices.flatMap fun value => (combinations rest).map ((x.key, value) :: ·)

theorem keys_of_mem_combinations (h : pairs ∈ combinations list) :
    pairs.map Prod.fst = list.map (·.key) := by
  induction list generalizing pairs with
  | nil => rw [List.mem_singleton.1 h]; rfl
  | cons x rest ih =>
    obtain ⟨value, -, h⟩ := List.mem_flatMap.1 h
    obtain ⟨tail, htail, rfl⟩ := List.mem_map.1 h
    rw [List.map_cons, List.map_cons, ih htail]

theorem map_snd_combinations (list : List Criterion) :
    (combinations list).map (fun pairs => pairs.map Prod.snd) =
      Attribute.combinations (list.map Criterion.choices) := by
  induction list with
  | nil => rfl
  | cons x rest ih =>
    rw [combinations, List.map_cons, Attribute.combinations_cons, ← ih, List.map_flatMap]
    refine List.flatMap_congr fun value _ => ?_
    rw [List.map_map, List.map_map]
    rfl

theorem joinedChoices_eq (list : List Criterion) : joinedChoices (list.map Criterion.choices) =
    (combinations list).map fun pairs => Text.joinWith compositeDelimiter (pairs.map Prod.snd) := by
  rw [joinedChoices_eq_map, ← map_snd_combinations, List.map_map]
  rfl

theorem wellFormed_asking (h : WellFormed list) (hkeys : pairs.map Prod.fst = list.map (·.key)) :
    WellFormed (asking pairs).list := by
  have hnames : (asking pairs).list.map (·.key) = list.map (·.key) := by
    rw [← hkeys, ← keys_asking, keys]
  have hexact : ∀ x ∈ (asking pairs).list, x.IsExact := by
    intro x hx
    obtain ⟨p, -, rfl⟩ := List.mem_map.1 hx
    exact ⟨rfl, rfl⟩
  refine ⟨fun hnil => ?_, fun x hx => ?_, ?_, fun x hx => hexact x (List.dropLast_subset _ hx),
    fun _ => hexact⟩
  · rw [hnil, List.map_nil, eq_comm, List.map_eq_nil_iff] at hnames
    exact h.nonempty hnames
  · have hkey : x.key ∈ list.map (·.key) := hnames ▸ List.mem_map_of_mem hx
    obtain ⟨y, hy, hyx⟩ := List.mem_map.1 hkey
    obtain ⟨hnamed, hplain, -⟩ := h.complete y hy
    rw [hyx] at hnamed hplain
    obtain ⟨p, -, rfl⟩ := List.mem_map.1 hx
    exact ⟨hnamed, hplain, rfl, by simp, by simp⟩
  · have htrimmed := congrArg (List.map Text.trim) hnames
    rw [List.map_map, List.map_map] at htrimmed
    exact htrimmed ▸ h.distinct

theorem check_asking (h : check limit list = .ok criteria) (hpairs : pairs ∈ combinations list) :
    check limit (asking pairs).list = .ok (asking pairs) := by
  have hchoice : (asking pairs).list.any (·.eqOr.isSome) = false := by simp [asking]
  refine check_eq_ok_iff.2 ⟨faults_eq_nil_iff.2 ⟨wellFormed_asking (wellFormed_of_check h)
    (keys_of_mem_combinations hpairs), ?_⟩, rfl⟩
  simp [countFaults, hchoice, onlyIf]

end Criteria

theorem filterMap_take {α β : Type} {f : α → Option β} {as : List α} (h : ∀ a ∈ as, (f a).isSome)
    (n : Nat) : (as.take n).filterMap f = (as.filterMap f).take n := by
  induction as generalizing n with
  | nil => simp
  | cons a as ih =>
    obtain ⟨ha, has⟩ := List.forall_mem_cons.1 h
    obtain ⟨b, hb⟩ := Option.isSome_iff_exists.1 ha
    cases n with
    | zero => simp
    | succ n => simp [hb, ih has]

namespace Table

variable {t : Tenant} {T : Table} {rows : List Row} {row : Row}

def documentAt? (T : Table) (t : Tenant) (row : Row) : Option Document :=
  row.attribute?.bind fun a => T.document? t a.documentId

theorem documentsOf_eq (h : T.Keeps t) (rows : List Row) :
    T.documentsOf t rows = firsts (rows.filterMap (T.documentAt? t)) := by
  have hinjective (id id' : String) (d : Document) (hd : T.document? t id = some d)
      (hd' : T.document? t id' = some d) : id = id' :=
    (id_of_document? h hd).symm.trans (id_of_document? h hd')
  rw [documentsOf, Store.matchedIds, ← firsts_filterMap hinjective, List.map_filterMap,
    List.filterMap_filterMap]
  refine congrArg firsts (List.filterMap_congr fun row _ => ?_)
  cases hrow : row.attribute? <;> simp [documentAt?, hrow]

theorem firsts_flatMap_documentPage (h : T.Keeps t) (pages : List (Page Row)) :
    firsts ((pages.map (T.documentPage t)).flatMap Page.items) =
      T.documentsOf t (pages.flatMap Page.items) := by
  have hitems : (fun page => (T.documentPage t page).items) =
      fun page : Page Row => firsts (page.items.filterMap (T.documentAt? t)) :=
    funext fun page => documentsOf_eq h page.items
  rw [List.flatMap_map, hitems, documentsOf_eq h, List.filterMap_flatMap, ← List.flatMap_map
    (fun page : Page Row => page.items.filterMap (T.documentAt? t)) firsts, firsts_flatMap_firsts,
    ← List.flatMap_def]

end Table

namespace Store

variable {c : Config} {tenants : Tenant → Prop} {t : Tenant} {criteria : Criteria}
  {condition : Condition} {s : Store} {documents : List Document}

theorem firsts_of_lists (h : s.Ready c t) (hplan : criteria.compile.plan = .single condition)
    (hgroup : criteria.isComposite → c.hasGroup criteria.keys)
    (hlists : Lists c t criteria s documents) :
    firsts documents = s.table.documentsOf t
      (s.table.queryAll (.matching t criteria.compile.key condition)) := by
  obtain ⟨size, turns, pages, hsteady, htime, hpages, hends, rfl⟩ := hlists
  obtain ⟨rowPages, hrows, hcuts, -⟩ := search_pages h hplan hgroup hsteady htime
  obtain rfl : pages = rowPages.map (s.table.documentPage t) :=
    eq_of_answers hpages (hrows.trans (by rw [List.map_map]; rfl))
  rw [Table.firsts_flatMap_documentPage h.sound.keeps,
    hcuts.items_eq (Table.ends_documentPage.1 hends)]

/-- A search for several values is answered at once with the beginning of the documents that have
them, in the order of the values. -/
theorem step_of_expand (h : s.Ready c t) {values : List String}
    (hplan : criteria.compile.plan = .expand values)
    (hgroup : criteria.isComposite → c.hasGroup criteria.keys) (clock : Clock)
    (request : PageRequest) :
    (s.step c ⟨t, clock, .search criteria request⟩).1 = .ok (.documentPage
      { items := (s.table.documentsOf t (values.flatMap fun value =>
          s.table.queryAll (.matching t criteria.compile.key (.equals value)))).take
            (Paging.clampLimit c request.limit) }) := by
  let rows : List Row := values.flatMap fun value =>
    s.table.queryAll (.matching t criteria.compile.key (.equals value))
  let n := Paging.clampLimit c request.limit
  have hlive : ∀ id ∈ matchedIds rows, (s.table.document? t id).isSome := by
    intro id hid
    obtain ⟨row, hrow, a, ha, rfl⟩ := mem_matchedIds.1 hid
    obtain ⟨value, -, hrow⟩ := List.mem_flatMap.1 hrow
    rw [Table.queryAll_matching h.sound.keeps] at hrow
    obtain ⟨b, hb, rfl⟩ := List.mem_map.1 hrow
    obtain rfl : b = a := Option.some.inj ha
    exact h.sound.isSome_document?_of_value ((Table.mem_matchingValues h.sound.keeps).1 hb).1
  have hnodup : ((matchedIds rows).take n).Nodup := (nodup_firsts _).take
  have hfound : (s.table.lookUp c t ((matchedIds rows).take n)).1 =
      .ok ((s.table.documentsOf t rows).take n) := by
    rw [Table.lookUp_eq h.sound.keeps h.name h.batches, firsts_eq_self hnodup,
      filterMap_take hlive, Table.documentsOf]
  simp only [step, Operation.perform, search, Operation.Pages.not_refused hgroup, Action.run_bind,
    hplan]
  rw [if_neg Bool.false_ne_true]
  simp only [Action.run_bind, Action.run_table, Action.run_pure, run_findDocuments]
  have hrows : (values.flatMap fun value => ({ s with clock } : Store).table.queryAll
      { index := .first, partition := Partition.attributeKey t criteria.compile.key
        condition := some (.equals value) }) = rows := rfl
  rw [hrows, hfound]

/-- After any requests of tenants side by side, a search that leaves a choice is answered with the first
documents of a list: what the searches for each combination of values, the first one varying slowest,
list page by page, one after the other, and each document once. These can all be searched for, and the
answer has no links. -/
theorem choice_search_merges (c : Config) {maxBatchSize : Nat} (hmax : 0 < maxBatchSize)
    (clock : Clock) (hapart : ∀ t u, tenants t → tenants u → u ≠ t → u.Apart t)
    {requests : List Request} (hrequests : ∀ r ∈ requests, tenants r.tenant) (ht : tenants t)
    {list : List Criterion} (hcheck : Criteria.check c.maxCombinations list = .ok criteria)
    (hchoice : ∃ x ∈ list, x.eqOr.isSome) (hgroup : criteria.isComposite → c.hasGroup criteria.keys)
    (now : Clock) (request : PageRequest) :
    let s := (run c (fresh c.documentsTable maxBatchSize clock) requests).2
    (∀ pairs ∈ Criteria.combinations list,
      Criteria.check c.maxCombinations (Criteria.asking pairs).list = .ok (.asking pairs) ∧
        (c.Valid → ∃ documents, Lists c t (.asking pairs) s documents)) ∧
    ∀ listings, List.Forall₂ (fun pairs documents => Lists c t (.asking pairs) s documents)
      (Criteria.combinations list) listings →
        (s.step c ⟨t, now, .search criteria request⟩).1 = .ok (.documentPage
          { items := (firsts listings.flatten).take (Paging.clampLimit c request.limit) }) := by
  intro s
  have hready : s.Ready c t := ready_run c hmax clock hapart hrequests ht
  obtain ⟨-, rfl⟩ := Criteria.check_eq_ok_iff.1 hcheck
  have hkeys {pairs : List (String × String)} (hpairs : pairs ∈ Criteria.combinations list) :
      (Criteria.asking pairs).keys = Criteria.keys ⟨list⟩ := by
    rw [Criteria.keys_asking, Criteria.keys_of_mem_combinations hpairs]
    rfl
  have hgroup' {pairs : List (String × String)} (hpairs : pairs ∈ Criteria.combinations list)
      (hcomposite : (Criteria.asking pairs).isComposite) : c.hasGroup (Criteria.asking pairs).keys := by
    have hlength := congrArg List.length (hkeys hpairs)
    rw [Criteria.keys, Criteria.keys, List.length_map, List.length_map] at hlength
    rw [hkeys hpairs]
    rw [Criteria.isComposite, hlength] at hcomposite
    exact hgroup hcomposite
  refine ⟨fun pairs hpairs => ⟨Criteria.check_asking hcheck hpairs, fun hc =>
    exists_lists hc hready (Criteria.plan_asking pairs) (hgroup' hpairs)⟩, fun listings hlistings => ?_⟩
  let key : String := Attribute.compositeName (Criteria.keys ⟨list⟩)
  let rows (pairs : List (String × String)) : List Row := s.table.queryAll (.matching t key
    (.equals (Text.joinWith compositeDelimiter (pairs.map Prod.snd))))
  -- each search lists what the rows of its combination lead to
  have hlisted : firsts ((Criteria.combinations list).map fun pairs =>
      (rows pairs).filterMap (s.table.documentAt? t)).flatten = firsts listings.flatten := by
    refine firsts_flatten_congr (List.forall₂_map_left_iff.2 ?_)
    refine ((List.forall₂_and_left _ _).2
      ⟨fun _ hpairs => hpairs, hlistings⟩).imp ?_
    rintro pairs documents ⟨hpairs, hlists⟩
    rw [firsts_of_lists hready (Criteria.plan_asking pairs) (hgroup' hpairs) hlists,
      Criteria.key_compile, hkeys hpairs, Table.documentsOf_eq hready.sound.keeps]
  rw [step_of_expand hready (Criteria.plan_of_choice hchoice) hgroup, ← hlisted, Criteria.key_compile,
    Criteria.joinedChoices_eq, List.flatMap_map, Table.documentsOf_eq hready.sound.keeps,
    List.filterMap_flatMap, List.flatMap_def]

def recordsFiled : List Request :=
  saves [ofSecond "p" 1, ofSecond "q" 2] ++
    [("p", [("category", "memo"), ("category", "note"), ("year", "2024")]),
      ("q", [("category", "memo"), ("year", "2023")])].map fun filed =>
        ⟨.default, ⟨0⟩, .setAttributes filed.1
          (filed.2.map fun pair => ⟨filed.1, pair.1, .text pair.2, "u", ⟨1, 0⟩⟩)⟩

def noteOrMemo : List Criterion :=
  [{ key := "category", eqOr := some ["note", "memo"] },
    { key := "year", eqOr := some ["2024", "2023"] }]

theorem note_or_memo_merged :
    let s := (run dated (fresh "documents" 1 ⟨0⟩) recordsFiled).2
    let p := ofSecond "p" 1
    let q := ofSecond "q" 2
    Criteria.check 100 noteOrMemo = .ok ⟨noteOrMemo⟩ ∧
      List.Forall₂ (fun pairs documents => Lists dated .default (.asking pairs) s documents)
        (Criteria.combinations noteOrMemo) [[p], [], [p], [q]] ∧
      (s.step dated ⟨.default, ⟨1⟩, .search ⟨noteOrMemo⟩ { limit := some 2 }⟩).1 =
        .ok (.documentPage { items := [p, q] }) := by
  intro s p q
  have hcheck : Criteria.check 100 noteOrMemo = .ok ⟨noteOrMemo⟩ := by decide
  have hlists : List.Forall₂ (fun pairs documents => Lists dated .default (.asking pairs) s documents)
      (Criteria.combinations noteOrMemo) [[p], [], [p], [q]] := by
    have hpage (pairs : List (String × String)) (documents : List Document)
        (h : (s.step dated ⟨.default, ⟨1⟩, .search (.asking pairs) {}⟩).1 =
          .ok (.documentPage { items := documents })) :
        Lists dated .default (.asking pairs) s documents := lists_of_page h rfl
    exact .cons (hpage _ _ (by decide +kernel)) (.cons (hpage _ _ (by decide +kernel))
      (.cons (hpage _ _ (by decide +kernel)) (.cons (hpage _ _ (by decide +kernel)) .nil)))
  have hrequests : ∀ r ∈ recordsFiled, r.tenant = .default := by decide
  obtain ⟨-, hmerged⟩ := choice_search_merges dated Nat.one_pos ⟨0⟩ (Tenant.apart_of_eq .default)
    hrequests rfl hcheck ⟨_, List.mem_cons_self, rfl⟩ (fun _ => by decide) ⟨1⟩ { limit := some 2 }
  refine ⟨hcheck, hlists, (hmerged _ hlists).trans ?_⟩
  decide +kernel

end Store

end Cabinet
