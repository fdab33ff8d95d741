import Cabinet.Proofs.Store.CompositeSearch
import Cabinet.Proofs.Store.Leaves

/-! The default tenant beside a site. Main statement: as long as the name of the site does not begin
as the keys of the default tenant do, neither tenant notices the requests of the other; where it
does, the default tenant can ask for what the site has filed. -/

namespace Cabinet

open Equiv (Perm)
open NamesTokens (tokens rename)

theorem Text.beginsWith_of_append_eq {front a x y : String} (hfront : '/' ∉ front.toList)
    (h : a ++ "/" ++ x = front ++ y) : beginsWith front a := by
  have hlist : a.toList ++ '/' :: x.toList = front.toList ++ y.toList := by
    simpa using congrArg String.toList h
  rcases List.append_eq_append_iff.1 hlist with ⟨rest, hrest, hx⟩ | ⟨rest, ha, -⟩
  · cases rest with
    | nil => exact beginsWith_iff.2 ⟨"", String.toList_inj.1 (by simpa using hrest.symm)⟩
    | cons first rest =>
      obtain rfl : '/' = first := (List.cons.inj hx).1
      exact absurd (by simp [hrest]) hfront
  · exact beginsWith_iff.2 ⟨String.ofList rest, String.toList_inj.1 (by simpa using ha)⟩

namespace Tenant

def fronts : List String := Partition.words ++ Partition.words.map (SoftDelete.marker ++ ·)

/-- The name of a site begins like a key of the default tenant. -/
def ReadsAsKey (a : String) : Prop := ∃ front ∈ fronts, Text.beginsWith front a

instance (a : String) : Decidable (ReadsAsKey a) :=
  inferInstanceAs (Decidable (∃ front ∈ fronts, Text.beginsWith front a))

theorem isOwn_default_iff {p : String} :
    Partition.IsOwn .default p ↔ ∃ front ∈ fronts, ∃ rest, p = front ++ rest := by
  simp only [fronts, List.mem_append, List.mem_map]
  constructor
  · rintro (⟨word, hword, rest, rfl⟩ | ⟨_, ⟨word, hword, rest, rfl⟩, rfl⟩)
    · exact ⟨word, .inl hword, rest, key_default _⟩
    · refine ⟨SoftDelete.marker ++ word, .inr ⟨word, hword, rfl⟩, rest, ?_⟩
      rw [SoftDelete.markKey_key, key_default, String.append_assoc]
  · rintro ⟨_, hword | ⟨word, hword, rfl⟩, rest, rfl⟩
    · exact .inl ⟨_, hword, rest, (key_default _).symm⟩
    · refine .inr ⟨_, ⟨word, hword, rest, rfl⟩, ?_⟩
      rw [SoftDelete.markKey_key, key_default, String.append_assoc]

theorem apart_default_iff {a : String} : Tenant.default.Apart (.site a) ↔ ¬ReadsAsKey a := by
  constructor
  · rintro hapart ⟨front, hfront, hbegins⟩
    obtain ⟨rest, rfl⟩ := Text.beginsWith_iff.1 hbegins
    refine hapart (Partition.document (.site (front ++ rest)) "") ?_ (.inl Partition.isLive_document)
    refine isOwn_default_iff.2 ⟨front, hfront, rest ++ "/" ++ ("docs#" ++ ""), ?_⟩
    rw [Partition.document, key_site, String.append_assoc, String.append_assoc, String.append_assoc]
  · intro hplain p hdefault hsite
    obtain ⟨front, hfront, rest, rfl⟩ := isOwn_default_iff.1 hdefault
    obtain ⟨id, hid⟩ := eq_key_of_isOwn hsite
    have hslash : ∀ front ∈ fronts, '/' ∉ front.toList := by decide
    exact hplain ⟨front, hfront, Text.beginsWith_of_append_eq (hslash front hfront) hid.symm⟩

end Tenant

theorem Operation.perform_default_eq (c : Config) (r id : String) (page : PageRequest) :
    (findDocument (r ++ "/docs#" ++ id)).perform c .default =
        (findDocument id).perform c (.site ("docs#" ++ r)) ∧
      (findChildDocuments (r ++ "/children#" ++ id)).perform c .default =
        (findChildDocuments id).perform c (.site ("children#" ++ r)) ∧
      (folderOfDocument (r ++ "/folder#" ++ id)).perform c .default =
        (folderOfDocument id).perform c (.site ("folder#" ++ r)) ∧
      (searchTags (r ++ "/tag#" ++ id) none page).perform c .default =
        (searchTags id none page).perform c (.site ("tag#" ++ r)) := by
  have hkey (word : String) : Tenant.default.key (word ++ (r ++ ("/" ++ word) ++ id)) =
      (Tenant.site (word ++ r)).key (word ++ id) := by
    rw [Tenant.key_default, Tenant.key_site]
    simp only [String.append_assoc]
  have hdocument : Partition.document .default (r ++ "/docs#" ++ id) =
      Partition.document (.site ("docs#" ++ r)) id := hkey "docs#"
  have hchildren : Partition.children .default (r ++ "/children#" ++ id) =
      Partition.children (.site ("children#" ++ r)) id := hkey "children#"
  have hleaf : Partition.leaf .default (r ++ "/folder#" ++ id) =
      Partition.leaf (.site ("folder#" ++ r)) id := hkey "folder#"
  have htag : Partition.tag .default (r ++ "/tag#" ++ id) =
      Partition.tag (.site ("tag#" ++ r)) id := hkey "tag#"
  refine ⟨?_, ?_, ?_, ?_⟩
  · simp only [perform, Store.findDocument, Table.document?, hdocument]
  · simp only [perform, Store.findChildDocuments, Table.children, hchildren]
  · simp only [perform, Store.folderOfDocument, Table.leaf?, hleaf]
  · simp only [perform, Store.searchTags, htag]

namespace Store

variable {t u : Tenant} {c : Config} {name : String} {maxBatchSize : Nat} {clock : Clock}

/-- The requests of `u` can be left out of every run without a change in the answers to `t`, but for
the names of page tokens. -/
def Unnoticed (c : Config) (name : String) (maxBatchSize : Nat) (clock : Clock) (t u : Tenant) :
    Prop :=
  ∀ requests : List Request, (∀ r ∈ requests, r.tenant = t ∨ r.tenant = u) →
    (requests.Pairwise fun r r' => r.clock.now ≤ r'.clock.now) →
      PassesGiven c t (fresh name maxBatchSize clock) [] requests → ∃ ρ : Perm Nat,
        (run c (fresh name maxBatchSize clock) (alone t ρ requests)).1 =
          (answersTo c t (fresh name maxBatchSize clock) requests).map (rename ρ)

theorem unnoticed_of_apart (hapart : u.Apart t) : Unnoticed c name maxBatchSize clock t u := by
  intro requests htenants hclocks hgiven
  cases requests with
  | nil => exact ⟨Equiv.refl Nat, rfl⟩
  | cons r rest =>
    -- the first request sets the clock, whatever it shows before
    have hclock : ∀ r' ∈ r :: rest, r.clock.now ≤ r'.clock.now :=
      List.forall_mem_cons.2 ⟨Int.le_refl _, (List.pairwise_cons.1 hclocks).1⟩
    obtain ⟨w, -, hanswers, -⟩ := alike_run c hapart (alike_fresh name maxBatchSize r.clock t)
      (keeps_fresh name maxBatchSize r.clock u) htenants hclock hclocks
      (fun id hid => absurd hid List.not_mem_nil) hgiven
    have hsame := (run_clock c (fresh name maxBatchSize clock) r.clock
      (alone t w.perm (r :: rest))).1
    exact ⟨w.perm, hsame.symm.trans hanswers⟩

variable {before rest : List Request}

theorem answersTo_append (h : ∀ r ∈ before, r.tenant ≠ t) (s : Store) :
    answersTo c t s (before ++ rest) = answersTo c t (run c s before).2 rest := by
  induction before generalizing s with
  | nil => rfl
  | cons r before ih =>
    obtain ⟨hr, hbefore⟩ := List.forall_mem_cons.1 h
    rw [List.cons_append, answersTo_cons, if_neg hr, ih hbefore, run_cons]

theorem passesGiven_append (h : ∀ r ∈ before, r.tenant ≠ t) (s : Store) (given : List TokenId) :
    PassesGiven c t s given (before ++ rest) ↔ PassesGiven c t (run c s before).2 given rest := by
  induction before generalizing s with
  | nil => rfl
  | cons r before ih =>
    obtain ⟨hr, hbefore⟩ := List.forall_mem_cons.1 h
    rw [List.cons_append, PassesGiven, if_neg hr, ih hbefore, run_cons]
    exact and_iff_right fun htenant => absurd htenant hr

theorem alone_append (h : ∀ r ∈ before, r.tenant ≠ t) (ρ : Perm Nat) :
    alone t ρ (before ++ rest) = alone t ρ rest := by
  have hnone : before.filter (·.tenant = t) = [] :=
    List.filter_eq_nil_iff.2 fun r hr => by simpa using h r hr
  rw [alone, List.filter_append, hnone, List.nil_append, alone]

theorem Unnoticed.step_eq (h : Unnoticed c name maxBatchSize clock t u) (hne : u ≠ t)
    (hbefore : ∀ r ∈ before, r.tenant = u ∧ r.clock = clock) {r : Request}
    (hr : r.tenant = t ∧ r.clock = clock) (htokens : tokens r = []) : ∃ ρ : Perm Nat,
      ((fresh name maxBatchSize clock).step c (rename ρ r)).1 =
        rename ρ ((run c (fresh name maxBatchSize clock) before).2.step c r).1 := by
  have hother : ∀ r ∈ before, r.tenant ≠ t := fun r hr ht => hne ((hbefore r hr).1.symm.trans ht)
  have hall : ∀ r' ∈ before ++ [r], (r'.tenant = t ∨ r'.tenant = u) ∧ r'.clock = clock := by
    intro r' hr'
    rcases List.mem_append.1 hr' with hr' | hr'
    · exact ⟨.inr (hbefore r' hr').1, (hbefore r' hr').2⟩
    · rw [List.mem_singleton.1 hr']
      exact ⟨.inl hr.1, hr.2⟩
  have hclocks : (before ++ [r]).Pairwise fun r r' => r.clock.now ≤ r'.clock.now :=
    List.pairwise_of_forall_mem_list fun r hr r' hr' => by rw [(hall r hr).2, (hall r' hr').2]
  have hgiven : PassesGiven c t (fresh name maxBatchSize clock) [] (before ++ [r]) := by
    rw [passesGiven_append hother]
    refine ⟨fun _ id hid => ?_, trivial⟩
    rw [htokens] at hid
    cases hid
  obtain ⟨ρ, hρ⟩ := h _ (fun r hr => (hall r hr).1) hclocks hgiven
  refine ⟨ρ, ?_⟩
  have halone : alone t ρ [r] = [rename ρ r] := by
    simp only [alone, hr.1, decide_true, List.filter_cons_of_pos, List.filter_nil, List.map_cons,
      List.map_nil]
  rw [answersTo_append hother, alone_append hother, answersTo_cons, if_pos hr.1, halone] at hρ
  exact (List.cons.inj hρ).1

def filing (t : Tenant) (clock : Clock) (ds : List Document) : List Request :=
  ds.map (⟨t, clock, .saveDocument ·⟩)

theorem of_mem_filing {ds : List Document} :
    ∀ r ∈ filing t clock ds, r.tenant = t ∧ r.clock = clock := by
  intro r hr
  obtain ⟨d, -, rfl⟩ := List.mem_map.1 hr
  exact ⟨rfl, rfl⟩

theorem keeps_filing (c : Config) (t : Tenant) (name : String) (maxBatchSize : Nat) (clock : Clock)
    (ds : List Document) :
    (run c (fresh name maxBatchSize clock) (filing t clock ds)).2.table.Keeps t :=
  (sound_run (fun r hr => (of_mem_filing r hr).1) (sound_fresh t name maxBatchSize clock)).keeps

theorem not_unnoticed_of_look (hne : u ≠ t) (ds : List Document) (op : Operation)
    (look : Table → Answer) (hop : op.page? = none)
    (hlook : ∀ s, ((op.perform c t).run s).1 = .ok (look s.table))
    (hplain : ∀ ρ T, rename ρ (look T) = look T)
    (hseen : look (fresh name maxBatchSize clock).table ≠
      look (run c (fresh name maxBatchSize clock) (filing u clock ds)).2.table) :
    ¬Unnoticed c name maxBatchSize clock t u := by
  intro h
  let ask : Request := ⟨t, clock, op⟩
  have htokens : tokens op = [] := congrArg tokens hop
  have hrename (ρ : Perm Nat) : rename ρ op = op := by
    show (op.page?.map _).getD op = op
    rw [hop]
    rfl
  obtain ⟨ρ, hρ⟩ := h.step_eq (r := ask) hne of_mem_filing ⟨rfl, rfl⟩ htokens
  have hask : rename ρ ask = ask := congrArg (Request.mk t clock) (hrename ρ)
  have hanswer (s : Store) : (s.step c ask).1 = .ok (look s.table) := hlook { s with clock }
  rw [hask, hanswer, hanswer] at hρ
  exact hseen ((Except.ok.inj hρ).trans (hplain ρ _))

theorem not_unnoticed_of_docs (c : Config) (name : String) (maxBatchSize : Nat) (clock : Clock)
    (r : String) : ¬Unnoticed c name maxBatchSize clock .default (.site ("docs#" ++ r)) := by
  let site : Tenant := .site ("docs#" ++ r)
  refine not_unnoticed_of_look nofun [paper] (.findDocument (r ++ "/docs#" ++ "p"))
    (fun T => .document (T.document? site "p")) rfl (fun s => ?_) (fun _ _ => rfl) fun he => ?_
  · rw [(Operation.perform_default_eq c r "p" {}).1]
    rfl
  · have hsaved : ((run c (fresh name maxBatchSize clock)
        (filing site clock [paper])).2.table.document? site "p").isSome :=
      document?_of_save site name maxBatchSize clock clock
    rw [← Answer.document.inj he] at hsaved
    cases hsaved

def leaflet : Document := { paper with id := "c", parent := some "p" }

theorem leaflet_mem_children (c : Config) (t : Tenant) (name : String) (maxBatchSize : Nat)
    (clock : Clock) : ∃ d, d ∈ (run c (fresh name maxBatchSize clock)
      (filing t clock [paper, leaflet])).2.table.children t "p" := by
  let s := (run c (fresh name maxBatchSize clock) (filing t clock [paper])).2
  have hkeeps : s.table.Keeps t := keeps_filing c t name maxBatchSize clock [paper]
  have hlive : (s.table.document? t "p").isSome := document?_of_save t name maxBatchSize clock clock
  have hparent : ∀ p ∈ leaflet.parent, (s.table.document? t p).isSome := by
    rintro _ ⟨⟩
    exact hlive
  obtain ⟨n, hn⟩ := table_of_save (c := c) (by decide) hparent clock
  have htable : (run c (fresh name maxBatchSize clock)
      (filing t clock [paper, leaflet])).2.table = _ := hn
  have hkeeps' := keeps_filing c t name maxBatchSize clock [paper, leaflet]
  refine ⟨s.table.successor t leaflet, (Table.mem_children hkeeps').2 ⟨?_, ?_, ?_⟩⟩
  · rw [htable]
    have htenant := s.table.successor_tenant t leaflet
    exact (Table.liveRow_mem_saved hkeeps htenant).2 (.inl rfl)
  · exact s.table.successor_tenant t leaflet
  · exact s.table.successor_parent t leaflet

theorem not_unnoticed_of_children (c : Config) (name : String) (maxBatchSize : Nat) (clock : Clock)
    (r : String) : ¬Unnoticed c name maxBatchSize clock .default (.site ("children#" ++ r)) := by
  let site : Tenant := .site ("children#" ++ r)
  refine not_unnoticed_of_look nofun [paper, leaflet]
    (.findChildDocuments (r ++ "/children#" ++ "p")) (fun T => .documents (T.children site "p")) rfl
    (fun s => ?_) (fun _ _ => rfl) fun he => ?_
  · rw [(Operation.perform_default_eq c r "p" {}).2.1]
    rfl
  · obtain ⟨d, hd⟩ := leaflet_mem_children c site name maxBatchSize clock
    rw [← Answer.documents.inj he, Table.mem_children (keeps_fresh name maxBatchSize clock _)] at hd
    exact not_mem_fresh name maxBatchSize clock _ hd.1

def paperFiled : Document := { paper with path := some "x" }

theorem leaf?_paperFiled (t : Tenant) :
    paperFiled.leaf? t = some ((Folder.leaf t "p" [] "x").row t) := by
  have hfile : Path.namesFolder "x" = false := by decide +kernel
  have hsegments : Path.segments "x" = ["x"] := by decide +kernel
  have hpath : paperFiled.path = some "x" := rfl
  have hid : paperFiled.id = "p" := rfl
  simp [Document.leaf?, Folder.leafRow?, hpath, hid, hfile, hsegments]

theorem node_of_paperFiled (c : Config) (t : Tenant) (name : String) (maxBatchSize : Nat)
    (clock : Clock) : (((run c (fresh name maxBatchSize clock)
      (filing t clock [paperFiled])).2.table.leaf? t "p").bind Folder.ofRow?).isSome := by
  obtain ⟨n, hn⟩ := table_of_save (c := c) (t := t) (s := fresh name maxBatchSize clock)
    (d := paperFiled) (by decide) nofun clock
  have htable : (run c (fresh name maxBatchSize clock)
      (filing t clock [paperFiled])).2.table = _ := hn
  obtain ⟨hsaved, -⟩ := ((foldersAgree_fresh t name maxBatchSize clock).leaf_saved_iff
    (sound_fresh t name maxBatchSize clock) (by decide)).2 (leaf?_paperFiled t)
  have hleaf : (Folder.leaf t "p" [] "x").row t ∈ (run c (fresh name maxBatchSize clock)
      (filing t clock [paperFiled])).2.table := by
    rw [htable]
    exact hsaved
  obtain ⟨row, hlookup⟩ := Option.isSome_iff_exists.1
    (Table.isSome_leafLookup (p := Partition.leaf t "p") hleaf rfl)
  have hkeeps := keeps_filing c t name maxBatchSize clock [paperFiled]
  obtain ⟨-, -, parents, file, hnames, rfl⟩ := Table.leaf?_eq_some hkeeps hlookup
  rw [Table.leaf?, hlookup, Option.bind_some, Folder.ofRow?_leaf (hnames file (by simp)).1]
  rfl

theorem not_unnoticed_of_folder (c : Config) (name : String) (maxBatchSize : Nat) (clock : Clock)
    (r : String) : ¬Unnoticed c name maxBatchSize clock .default (.site ("folder#" ++ r)) := by
  let site : Tenant := .site ("folder#" ++ r)
  refine not_unnoticed_of_look nofun [paperFiled] (.folderOfDocument (r ++ "/folder#" ++ "p"))
    (fun T => .node ((T.leaf? site "p").bind Folder.ofRow?)) rfl (fun s => ?_) (fun _ _ => rfl)
    fun he => ?_
  · rw [(Operation.perform_default_eq c r "p" {}).2.2.1]
    rfl
  · have hnode := node_of_paperFiled c site name maxBatchSize clock
    rw [← Answer.node.inj he] at hnode
    obtain ⟨node, hnode⟩ := Option.isSome_iff_exists.1 hnode
    obtain ⟨row, hrow, -⟩ := Option.bind_eq_some_iff.1 hnode
    exact not_mem_fresh name maxBatchSize clock row (Table.leafLookup_eq_some hrow).1

/-- The default tenant and a site have no partition in common exactly when the name of the site does
not begin like a key of the default tenant, and then the requests of neither are noticed by the
other. Where it begins like the key of a document, of its children or of its leaf, the default
tenant notices those of the site. -/
theorem default_and_site_unnoticed (c : Config) (name : String) (maxBatchSize : Nat) (clock : Clock)
    (a : String) :
    (Tenant.default.Apart (.site a) ↔ ¬Tenant.ReadsAsKey a) ∧
      (¬Tenant.ReadsAsKey a → Unnoticed c name maxBatchSize clock .default (.site a) ∧
        Unnoticed c name maxBatchSize clock (.site a) .default) ∧
      ((∃ word ∈ ["docs#", "children#", "folder#"], Text.beginsWith word a) →
        ¬Unnoticed c name maxBatchSize clock .default (.site a)) := by
  refine ⟨Tenant.apart_default_iff, fun hplain => ?_, fun ⟨word, hword, hbegins⟩ => ?_⟩
  · have hapart := Tenant.apart_default_iff.2 hplain
    exact ⟨unnoticed_of_apart hapart.symm, unnoticed_of_apart hapart⟩
  · obtain ⟨r, rfl⟩ := Text.beginsWith_iff.1 hbegins
    simp only [List.mem_cons, List.not_mem_nil, or_false] at hword
    rcases hword with rfl | rfl | rfl
    · exact not_unnoticed_of_docs c name maxBatchSize clock r
    · exact not_unnoticed_of_children c name maxBatchSize clock r
    · exact not_unnoticed_of_folder c name maxBatchSize clock r

def besideNorth : List Request :=
  let document (id : String) : Document :=
    { id, userId := "u", inserted := ⟨0, 0⟩, modified := ⟨0, 0⟩ }
  let own (millis : Int64) (op : Operation) : Request := ⟨.default, ⟨millis⟩, op⟩
  let north (millis : Int64) (op : Operation) : Request := ⟨.site "north", ⟨millis⟩, op⟩
  [own 0 (.saveDocument (document "d")), north 0 (.saveDocument (document "d")),
    north 1 (.saveDocument (document "e")), own 2 (.saveDocument (document "e")),
    own 3 (.listDocumentsByDate ⟨1970, 1, 1⟩ { limit := some 1 }),
    north 4 (.listDocumentsByDate ⟨1970, 1, 1⟩ { limit := some 1 }),
    north 5 (.deleteDocument "d" true),
    own 6 (.listDocumentsByDate ⟨1970, 1, 1⟩ { next := some (.issued 1) }),
    north 7 (.listDocumentsByDate ⟨1970, 1, 1⟩ { next := some (.issued 3) })]

theorem besideNorth_unnoticed :
    let s := fresh "documents" 100 ⟨0⟩
    ¬Tenant.ReadsAsKey "north" ∧
      (PassesGiven {} .default s [] besideNorth ∧ ∃ ρ : Perm Nat,
        (run {} s (alone .default ρ besideNorth)).1 =
          (answersTo {} .default s besideNorth).map (rename ρ)) ∧
      PassesGiven {} (.site "north") s [] besideNorth ∧ ∃ ρ : Perm Nat,
        (run {} s (alone (.site "north") ρ besideNorth)).1 =
          (answersTo {} (.site "north") s besideNorth).map (rename ρ) := by
  intro s
  have hplain : ¬Tenant.ReadsAsKey "north" := by decide
  have hgiven : PassesGiven {} .default s [] besideNorth := by decide +kernel
  have hgiven' : PassesGiven {} (.site "north") s [] besideNorth := by decide +kernel
  have hclocks : besideNorth.Pairwise fun r r' => r.clock.now ≤ r'.clock.now := by decide +kernel
  obtain ⟨hdefault, hsite⟩ :=
    (default_and_site_unnoticed {} "documents" 100 ⟨0⟩ "north").2.1 hplain
  exact ⟨hplain, ⟨hgiven, hdefault besideNorth (by decide) hclocks hgiven⟩, hgiven',
    hsite besideNorth (by decide) hclocks hgiven'⟩

def besideDocs : List Request :=
  [⟨.site "docs#x", ⟨0⟩, .saveDocument paper⟩, ⟨.default, ⟨0⟩, .findDocument "x/docs#p"⟩,
    ⟨.default, ⟨0⟩, .deleteDocument "x/docs#p" false⟩, ⟨.site "docs#x", ⟨0⟩, .findDocument "p"⟩]

theorem besideDocs_noticed :
    let s := fresh "documents" 100 ⟨0⟩
    let saved : Document := { paper with tenant := .site "docs#x" }
    Tenant.read (some "docs#x") = .ok (.site "docs#x") ∧
      answersTo {} .default s besideDocs = [.ok (.document (some saved)), .ok (.truth true)] ∧
      (∀ ρ, (run {} s (alone .default ρ besideDocs)).1 =
        [.ok (.document none), .ok (.truth false)]) ∧
      answersTo {} (.site "docs#x") s besideDocs =
        [.ok (.document (some saved)), .ok (.document none)] ∧
      ∀ ρ, (run {} s (alone (.site "docs#x") ρ besideDocs)).1 =
        [.ok (.document (some saved)), .ok (.document (some saved))] := by
  intro s saved
  have halone (t : Tenant) (ρ : Perm Nat) :
      alone t ρ besideDocs = besideDocs.filter (·.tenant = t) := by
    have hsame : ∀ r ∈ besideDocs, rename ρ r = r := by
      intro r hr
      simp only [besideDocs, List.mem_cons, List.not_mem_nil, or_false] at hr
      rcases hr with rfl | rfl | rfl | rfl <;> rfl
    exact (List.map_congr_left fun r hr => hsame r (List.mem_filter.1 hr).1).trans (List.map_id _)
  simp only [halone, forall_const]
  decide +kernel

end Store

end Cabinet
