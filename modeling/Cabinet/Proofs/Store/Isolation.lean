import Cabinet.Proofs.Key.Scope
import Cabinet.Proofs.Store.Passing
import Cabinet.Proofs.Store.Reached
import Cabinet.Proofs.Store.SameAnswers

/-! Tenants of named sites side by side. Main statement: without the requests of the other site, a
site's requests have the same answers, but for the names of page tokens, and file the same rows. -/

namespace Cabinet

open Equiv (Perm)
open NamesTokens (tokens rename)

namespace Tenant

theorem eq_key_of_isOwn {t : Tenant} {p : String} (h : Partition.IsOwn t p) :
    ∃ id, p = t.key id := by
  rcases h with h | ⟨q, hq, rfl⟩
  · exact h.holds
  · exact SoftDelete.holds_markKey hq.holds

theorem apart_sites {a b : String} (ha : '/' ∉ a.toList) (hb : '/' ∉ b.toList) (hne : a ≠ b) :
    (site a).Apart (site b) := by
  intro p hp hp'
  obtain ⟨x, rfl⟩ := eq_key_of_isOwn hp
  obtain ⟨y, hy⟩ := eq_key_of_isOwn hp'
  exact hne (site_eq_of_key_eq ha hb hy)

theorem apart_of_sites {a b : String} (ha : '/' ∉ a.toList) (hb : '/' ∉ b.toList) (hne : a ≠ b) :
    ∀ t u : Tenant, (t = .site a ∨ t = .site b) → (u = .site a ∨ u = .site b) → u ≠ t →
      u.Apart t := by
  rintro t u (rfl | rfl) (rfl | rfl) hut
  · exact absurd rfl hut
  · exact apart_sites hb ha hne.symm
  · exact apart_sites ha hb hne
  · exact absurd rfl hut

end Tenant

namespace Store

variable {t u : Tenant} {w : Renaming} {s s' : Store}

theorem Alike.advance (h : s.Alike t w s') {clock : Clock} (hclock : s.clock.now ≤ clock.now) :
    Store.Alike t w { s with clock } { s' with clock } where
  table := h.table
  clock := rfl
  left := h.left
  right := h.right
  bound := h.bound
  cache n hn time htime := h.cache n hn time (Int.le_trans hclock htime)

theorem alike_of_edits {T T' U : Table} (h : T.Alike t T') (hapart : u.Apart t)
    (he : T.Edits (Row.IsFiled u) U) : U.Alike t T' where
  rows row hrow := by
    rw [← h.rows row hrow]
    apply he.kept row
    intro r hr ha
    have hown : Partition.IsOwn u r.address.partition := hr.entry (i := .primary) rfl
    have hown' : Partition.IsOwn t row.address.partition := hrow.entry (i := .primary) rfl
    rw [← ha] at hown'
    exact hapart _ hown hown'
  left := h.left.of_edits_apart hapart he
  right := h.right
  name := he.name.trans h.name
  maxBatchSize := he.maxBatchSize.trans h.maxBatchSize
  others := he.others.trans h.others

theorem passes_step (h : s.HoldsIssued) (c : Config) (r : Request) :
    Store.Passes s.issued { s with clock := r.clock } (s.step c r).2 :=
  (Operation.spares_perform s.issued c r.tenant r.operation { s with clock := r.clock } h
    (Nat.le_refl _) trivial).1

/-- A tenant cannot tell whether another one has made a request. -/
theorem Alike.step_other (h : s.Alike t w s') {r : Request} (hu : s.table.Keeps r.tenant)
    (hapart : r.tenant.Apart t) (c : Config) (hclock : s.clock.now ≤ r.clock.now) :
    Store.Alike t w (s.step c r).2 { s' with clock := r.clock } := by
  obtain ⟨n, hn⟩ := table_step c s r
  have hpasses := passes_step h.left c r
  refine ⟨?_, hpasses.clock, hpasses.held, h.right, fun m hm => ?_, fun m hm time htime => ?_⟩
  · rw [hn]
    exact alike_of_edits h.table hapart ((Operation.edits_effect hu c r.operation).counted n)
  · obtain ⟨hlt, hlt'⟩ := h.bound m hm
    exact ⟨Nat.lt_of_lt_of_le hlt hpasses.issued, hlt'⟩
  · rw [hpasses.clock] at htime
    rw [hpasses.cache m (h.bound m hm).1 time htime]
    exact h.cache m hm time (Int.le_trans hclock htime)

theorem Alike.step_own (h : s.Alike t w s') (c : Config) {r : Request} (hr : r.tenant = t)
    (hown : ∀ id ∈ tokens r, w.Owns id) (hclock : s.clock.now ≤ r.clock.now) :
    ∃ w', w.Extends w' ∧ Store.Alike t w' (s.step c r).2 (s'.step c (rename w.perm r)).2 ∧
      w'.Relates (s.step c r).1 (s'.step c (rename w.perm r)).1 := by
  subst hr
  obtain ⟨w', hw', hs, houtcome⟩ := Operation.matches_perform c r.operation hown
    { s with clock := r.clock } { s' with clock := r.clock } (h.advance hclock)
  refine ⟨w', hw', hs, ?_⟩
  show w'.Relates ((r.operation.perform c r.tenant).run { s with clock := r.clock }).1
    (((rename w.perm r.operation).perform c r.tenant).run { s' with clock := r.clock }).1
  generalize ((r.operation.perform c r.tenant).run { s with clock := r.clock }).1 = x at houtcome
  generalize (((rename w.perm r.operation).perform c r.tenant).run
    { s' with clock := r.clock }).1 = x' at houtcome
  cases houtcome with
  | ok h => exact ⟨h.1, congrArg Except.ok h.2⟩
  | error e => exact ⟨nofun, rfl⟩

def answersTo (c : Config) (t : Tenant) (s : Store) (requests : List Request) :
    List (Except Error Answer) :=
  ((requests.zip (run c s requests).1).filter (·.1.tenant = t)).map (·.2)

theorem answersTo_cons (c : Config) (t : Tenant) (s : Store) (r : Request) (rest : List Request) :
    answersTo c t s (r :: rest) = if r.tenant = t then
      (s.step c r).1 :: answersTo c t (s.step c r).2 rest
    else answersTo c t (s.step c r).2 rest := by
  unfold answersTo
  rw [run_cons, List.zip_cons_cons, List.filter_cons]
  split <;> simp_all

/-- The tenant passes page tokens only that it has been given: at first `given`, and then those of
the answers to it. -/
def PassesGiven (c : Config) (t : Tenant) : Store → List TokenId → List Request → Prop
  | _, _, [] => True
  | s, given, r :: rest =>
    (r.tenant = t → ∀ id ∈ tokens r, id ∈ given) ∧
      PassesGiven c t (s.step c r).2
        (if r.tenant = t then given ++ tokens (s.step c r).1 else given) rest

instance decidablePassesGiven (c : Config) (t : Tenant) : (s : Store) → (given : List TokenId) →
    (requests : List Request) → Decidable (PassesGiven c t s given requests)
  | _, _, [] => inferInstanceAs (Decidable True)
  | s, given, r :: rest =>
    have := decidablePassesGiven c t (s.step c r).2
      (if r.tenant = t then given ++ tokens (s.step c r).1 else given) rest
    inferInstanceAs (Decidable (_ ∧ _))

def alone (t : Tenant) (ρ : Perm Nat) (requests : List Request) : List Request :=
  (requests.filter (·.tenant = t)).map (rename ρ)

theorem alike_run (c : Config) (hapart : u.Apart t) {requests : List Request}
    {given : List TokenId} (h : s.Alike t w s') (hu : s.table.Keeps u)
    (htenants : ∀ r ∈ requests, r.tenant = t ∨ r.tenant = u)
    (hclock : ∀ r ∈ requests, s.clock.now ≤ r.clock.now)
    (hclocks : requests.Pairwise fun r r' => r.clock.now ≤ r'.clock.now)
    (hown : ∀ id ∈ given, w.Owns id) (hgiven : PassesGiven c t s given requests) :
    ∃ w' : Renaming, w.Extends w' ∧
      (run c s' (alone t w'.perm requests)).1 = (answersTo c t s requests).map (rename w'.perm) ∧
      (run c s requests).2.table.Alike t (run c s' (alone t w'.perm requests)).2.table := by
  -- the renaming is chosen for the whole run, so the induction extends it step by step
  induction requests generalizing s s' w given with
  | nil => exact ⟨w, .refl w, rfl, h.table⟩
  | cons r rest ih =>
    obtain ⟨hrClock, hrestClocks⟩ := List.pairwise_cons.1 hclocks
    obtain ⟨hrGiven, hrestGiven⟩ := hgiven
    have hrestTenants := fun r' hr' => htenants r' (List.mem_cons_of_mem r hr')
    have hnow := hclock r List.mem_cons_self
    have hstepClock : (s.step c r).2.clock = r.clock := (passes_step h.left c r).clock
    rw [← hstepClock] at hrClock
    obtain ⟨n, hn⟩ := table_step c s r
    rw [answersTo_cons, run_cons]
    by_cases hr : r.tenant = t
    · -- both runs take the step
      have hrOwn : ∀ id ∈ tokens r, w.Owns id := fun id hid => hown id (hrGiven hr id hid)
      obtain ⟨w₁, hw₁, hs₁, hanswer⟩ := h.step_own c hr hrOwn hnow
      have hkeeps : (s.step c r).2.table.Keeps u := by
        have hedits : s.table.Edits (Row.IsFiled t) (r.operation.effect c t s.table) :=
          Operation.edits_effect h.table.left c r.operation
        rw [hn, hr]
        exact hu.of_edits_apart hapart.symm (hedits.counted n)
      rw [if_pos hr] at hrestGiven ⊢
      have hgiven₁ : ∀ id ∈ given ++ tokens (s.step c r).1, w₁.Owns id := fun id hid =>
        (List.mem_append.1 hid).elim (fun hid => (hown id hid).mono hw₁) (hanswer.1 id)
      obtain ⟨w₂, hw₂, hanswers, htable⟩ := ih hs₁ hkeeps hrestTenants hrClock hrestClocks hgiven₁
        hrestGiven
      have halone : alone t w₂.perm (r :: rest) = rename w.perm r :: alone t w₂.perm rest := by
        have hfilter : (r :: rest).filter (·.tenant = t) = r :: rest.filter (·.tenant = t) :=
          List.filter_cons_of_pos (decide_eq_true hr)
        rw [alone, hfilter, List.map_cons, (hw₁.trans hw₂).rename_eq hrOwn, alone]
      refine ⟨w₂, hw₁.trans hw₂, ?_, ?_⟩
      · rw [halone, run_cons, hanswers, List.map_cons, hanswer.2, hw₂.rename_eq hanswer.1]
      · rw [halone, run_cons]
        exact htable
    · -- the other tenant's request changes nothing for `t`
      have hru : r.tenant = u := (htenants r List.mem_cons_self).resolve_left hr
      have hs₁ := h.step_other (hru ▸ hu) (hru ▸ hapart) c hnow
      have hkeeps : (s.step c r).2.table.Keeps u := by
        have hedits : s.table.Edits (Row.IsFiled u) (r.operation.effect c u s.table) :=
          Operation.edits_effect hu c r.operation
        rw [hn, hru]
        exact hu.of_edits (fun _ hrow => hrow) (hedits.counted n)
      rw [if_neg hr] at hrestGiven ⊢
      obtain ⟨w₁, hw₁, hanswers, htable⟩ := ih hs₁ hkeeps hrestTenants hrClock hrestClocks hown
        hrestGiven
      have halone : alone t w₁.perm (r :: rest) = alone t w₁.perm rest := by
        have hfilter : (r :: rest).filter (·.tenant = t) = rest.filter (·.tenant = t) :=
          List.filter_cons_of_neg (by simpa using hr)
        rw [alone, hfilter, alone]
      obtain ⟨hsame, hsameTable⟩ := run_clock c s' r.clock (alone t w₁.perm rest)
      refine ⟨w₁, hw₁, ?_, ?_⟩
      · rw [halone, ← hsame, hanswers]
      · rw [halone, ← hsameTable]
        exact htable

theorem keeps_fresh (name : String) (maxBatchSize : Nat) (clock : Clock) (t : Tenant) :
    (fresh name maxBatchSize clock).table.Keeps t :=
  fun row hrow => absurd hrow (not_mem_fresh name maxBatchSize clock row)

theorem alike_fresh (name : String) (maxBatchSize : Nat) (clock : Clock) (t : Tenant) :
    Store.Alike t ⟨fun _ => False, Equiv.refl Nat⟩ (fresh name maxBatchSize clock)
      (fresh name maxBatchSize clock) where
  table := ⟨fun _ _ => Iff.rfl, keeps_fresh name maxBatchSize clock t,
    keeps_fresh name maxBatchSize clock t, rfl, rfl, rfl⟩
  clock := rfl
  left := by
    intro e he
    cases he
  right := by
    intro e he
    cases he
  bound _ h := h.elim
  cache _ h := h.elim

theorem tenant_of_mem_alone {ρ : Perm Nat} {requests : List Request} {r : Request}
    (h : r ∈ alone t ρ requests) : r.tenant = t := by
  obtain ⟨r, hr, rfl⟩ := List.mem_map.1 h
  exact of_decide_eq_true (List.mem_filter.1 hr).2

/-- The requests of one named site have the same answers and file the same rows when those of the
other site are left out. `ρ` gives the numbers of the page tokens in the run without them. -/
theorem answers_of_site_alone (c : Config) (name : String) (maxBatchSize : Nat) (clock : Clock)
    {x y : Option String} {a b : String} (ha : Tenant.read x = .ok (.site a))
    (hb : Tenant.read y = .ok (.site b)) (hne : a ≠ b) (requests : List Request)
    (htenants : ∀ r ∈ requests, r.tenant = .site a ∨ r.tenant = .site b)
    (hclocks : requests.Pairwise fun r r' => r.clock.now ≤ r'.clock.now)
    (hgiven : PassesGiven c (.site b) (fresh name maxBatchSize clock) [] requests) :
    ∃ ρ : Perm Nat,
      (run c (fresh name maxBatchSize clock) (alone (.site b) ρ requests)).1 =
        (answersTo c (.site b) (fresh name maxBatchSize clock) requests).map (rename ρ) ∧
      ∀ row : Row, Text.beginsWith (b ++ "/") row.address.partition →
        (row ∈ (run c (fresh name maxBatchSize clock) requests).2.table ↔
          row ∈ (run c (fresh name maxBatchSize clock) (alone (.site b) ρ requests)).2.table) := by
  have hslash := Tenant.not_mem_of_read ha
  have hslash' := Tenant.not_mem_of_read hb
  have hapart := Tenant.apart_sites hslash hslash' hne
  cases requests with
  | nil => exact ⟨Equiv.refl Nat, rfl, fun row _ => Iff.rfl⟩
  | cons r rest =>
    -- the first request sets the clock, whatever it shows before
    let s := fresh name maxBatchSize r.clock
    have hclock : ∀ r' ∈ r :: rest, s.clock.now ≤ r'.clock.now := by
      intro r' hr'
      rcases List.mem_cons.1 hr' with rfl | hr'
      · exact Int.le_refl _
      · exact (List.pairwise_cons.1 hclocks).1 r' hr'
    obtain ⟨w, -, hanswers, htable⟩ := alike_run c hapart
      (alike_fresh name maxBatchSize r.clock (.site b)) (keeps_fresh name maxBatchSize r.clock (.site a))
      (fun r' hr' => (htenants r' hr').symm) hclock hclocks (fun id hid => absurd hid List.not_mem_nil) hgiven
    obtain ⟨hsame, hsameTable⟩ := run_clock c (fresh name maxBatchSize clock) r.clock
      (alone (.site b) w.perm (r :: rest))
    refine ⟨w.perm, hsame.symm.trans hanswers, fun row hrow => ?_⟩
    rw [← hsameTable]
    -- a row under the site's keys is none of the other site's
    obtain ⟨key, hkey⟩ := Text.beginsWith_iff.1 hrow
    have hwhole : (run c s (r :: rest)).2.table.FiledBy
        fun u => u = .site a ∨ u = .site b := by
      refine filedBy_run ?_ htenants (filedBy_fresh name maxBatchSize r.clock _)
      rintro t u (rfl | rfl) (rfl | rfl) hut
      · exact absurd rfl hut
      · exact hapart.symm
      · exact hapart
      · exact absurd rfl hut
    have halone : (run c s (alone (.site b) w.perm (r :: rest))).2.table.FiledBy (· = .site b) := by
      refine filedBy_run ?_ (fun _ => tenant_of_mem_alone)
        (filedBy_fresh name maxBatchSize r.clock _)
      rintro t u rfl rfl hut
      exact absurd rfl hut
    constructor
    · intro hmem
      obtain ⟨u, rfl | rfl, hfiled⟩ := hwhole row hmem
      · obtain ⟨key', hkey'⟩ := Tenant.eq_key_of_isOwn (hfiled.entry (i := .primary) rfl)
        have hkeys : (Tenant.site a).key key' = (Tenant.site b).key key := hkey'.symm.trans hkey
        exact absurd (Tenant.site_eq_of_key_eq hslash hslash' hkeys) hne
      · exact (htable.rows row hfiled).1 hmem
    · intro hmem
      obtain ⟨u, rfl, hfiled⟩ := halone row hmem
      exact (htable.rows row hfiled).2 hmem

def twoSites : List Request :=
  let document (id : String) : Document :=
    { id, userId := "u", inserted := ⟨0, 0⟩, modified := ⟨0, 0⟩ }
  let north (millis : Int64) (op : Operation) : Request := ⟨.site "north", ⟨millis⟩, op⟩
  let south (millis : Int64) (op : Operation) : Request := ⟨.site "south", ⟨millis⟩, op⟩
  [north 0 (.saveDocument (document "d")), south 0 (.saveDocument (document "d")),
    south 1 (.saveDocument (document "e")), north 2 (.listDocumentsByDate ⟨1970, 1, 1⟩ {}),
    south 3 (.listDocumentsByDate ⟨1970, 1, 1⟩ { limit := some 1 }),
    north 4 (.deleteDocument "d" true),
    north 5 (.listDocumentsByDate ⟨1970, 1, 1⟩ { next := some (.issued 2) }),
    south 6 (.listDocumentsByDate ⟨1970, 1, 1⟩ { next := some (.issued 2) })]

theorem answers_of_south_alone :
    PassesGiven {} (.site "south") (fresh "documents" 100 ⟨0⟩) [] twoSites ∧ ∃ ρ : Perm Nat,
      (run {} (fresh "documents" 100 ⟨0⟩) (alone (.site "south") ρ twoSites)).1 =
        (answersTo {} (.site "south") (fresh "documents" 100 ⟨0⟩) twoSites).map (rename ρ) ∧
      ∀ row : Row, Text.beginsWith ("south" ++ "/") row.address.partition →
        (row ∈ (run {} (fresh "documents" 100 ⟨0⟩) twoSites).2.table ↔
          row ∈ (run {} (fresh "documents" 100 ⟨0⟩) (alone (.site "south") ρ twoSites)).2.table) := by
  have hgiven : PassesGiven {} (.site "south") (fresh "documents" 100 ⟨0⟩) [] twoSites := by
    decide +kernel
  have hnorth : Tenant.read (some "north") = .ok (.site "north") := by decide +kernel
  have hsouth : Tenant.read (some "south") = .ok (.site "south") := by decide +kernel
  exact ⟨hgiven, answers_of_site_alone {} "documents" 100 ⟨0⟩ hnorth hsouth (by decide) twoSites
    (by decide) (by decide +kernel) hgiven⟩

end Store

end Cabinet
