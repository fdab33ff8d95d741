import Cabinet.Store.Lifecycle
import Mathlib.Data.Finset.Card
import Mathlib.Logic.Relation

/-! What is reached from a start by steps to the next ones. Main statement: a search that may visit
everything there is comes to its end, finds exactly this, and further visits find no more. -/

namespace Cabinet

open Relation

variable {next : String → List String}

theorem mem_reachable_of_mem {fuel : Nat} {pending known : List String} {x : String}
    (h : x ∈ known) : x ∈ reachable next fuel pending known := by
  induction fuel generalizing pending known with
  | zero => exact h
  | succ fuel ih =>
    cases pending with
    | nil => exact h
    | cons id pending => exact ih (List.mem_append_left _ h)

theorem reachable_induction {P : String → Prop} (step : ∀ a b, P a → b ∈ next a → P b)
    {fuel : Nat} {pending known : List String} (hp : ∀ x ∈ pending, P x) (hk : ∀ x ∈ known, P x)
    {x : String} (h : x ∈ reachable next fuel pending known) : P x := by
  induction fuel generalizing pending known with
  | zero => exact hk x h
  | succ fuel ih =>
    cases pending with
    | nil => exact hk x h
    | cons id pending =>
      have hnew : ∀ y ∈ (firsts (next id)).filter (· ∉ known), P y := by
        intro y hy
        refine step id y (hp id List.mem_cons_self) ?_
        exact mem_firsts.1 (List.mem_filter.1 hy).1
      refine ih ?_ ?_ h
      · intro y hy
        rcases List.mem_append.1 hy with hy | hy
        · exact hp y (List.mem_cons_of_mem id hy)
        · exact hnew y hy
      · intro y hy
        rcases List.mem_append.1 hy with hy | hy
        · exact hk y hy
        · exact hnew y hy

theorem nodup_reachable {fuel : Nat} {pending known : List String} (h : known.Nodup) :
    (reachable next fuel pending known).Nodup := by
  induction fuel generalizing pending known with
  | zero => exact h
  | succ fuel ih =>
    cases pending with
    | nil => exact h
    | cons id pending =>
      refine ih (List.nodup_append.2 ⟨h, (nodup_firsts _).filter _, fun a ha b hb => ?_⟩)
      rintro rfl
      simp [ha] at hb

/-- Visits one after another until none is pending, and what is known then. -/
inductive Visited (next : String → List String) : List String → List String → List String → Prop
  | done (known : List String) : Visited next [] known known
  | visit {id : String} {pending known found : List String}
    (h : Visited next (pending ++ (firsts (next id)).filter (· ∉ known))
      (known ++ (firsts (next id)).filter (· ∉ known)) found) :
    Visited next (id :: pending) known found

section Enough

variable {all : Finset String} (hall : ∀ x, ∀ y ∈ next x, y ∈ all)

include hall

theorem card_unknown_visit (id : String) (known : List String) :
    ((firsts (next id)).filter (· ∉ known)).length +
      (all \ (known ++ (firsts (next id)).filter (· ∉ known)).toFinset).card =
      (all \ known.toFinset).card := by
  have hnodup := (nodup_firsts (next id)).filter (· ∉ known)
  have hsub : ((firsts (next id)).filter (· ∉ known)).toFinset ⊆ all \ known.toFinset := by
    intro x hx
    simp only [List.mem_toFinset, List.mem_filter, mem_firsts, decide_eq_true_eq] at hx
    simpa [hx.2] using hall id x hx.1
  rw [List.toFinset_append, ← Finset.sup_eq_union, ← sdiff_sdiff_left,
    ← List.toFinset_card_of_nodup hnodup]
  have := Finset.card_sdiff_add_card_eq_card hsub
  omega

theorem reachable_add {fuel : Nat} {pending known : List String} (more : Nat)
    (h : pending.length + (all \ known.toFinset).card ≤ fuel) :
    reachable next (fuel + more) pending known = reachable next fuel pending known := by
  induction fuel generalizing pending known with
  | zero =>
    have hnil : pending = [] := List.eq_nil_of_length_eq_zero (by omega)
    subst hnil
    cases more <;> simp [reachable]
  | succ fuel ih =>
    rw [Nat.succ_add]
    cases pending with
    | nil => rfl
    | cons id pending =>
      have := card_unknown_visit hall id known
      rw [reachable, reachable]
      -- what is left of the visits covers what is pending and what is not known yet
      apply ih
      simp only [List.length_cons, List.length_append] at h ⊢
      omega

theorem closed_reachable {fuel : Nat} {pending known : List String}
    (h : pending.length + (all \ known.toFinset).card ≤ fuel)
    (hclosed : ∀ x ∈ known, x ∈ pending ∨ ∀ y ∈ next x, y ∈ known)
    {x y : String} (hx : x ∈ reachable next fuel pending known) (hy : y ∈ next x) :
    y ∈ reachable next fuel pending known := by
  induction fuel generalizing pending known with
  | zero =>
    have hnil : pending = [] := List.eq_nil_of_length_eq_zero (by omega)
    subst hnil
    rcases hclosed x hx with hmem | hnext
    · cases hmem
    · exact hnext y hy
  | succ fuel ih =>
    cases pending with
    | nil =>
      rcases hclosed x hx with hmem | hnext
      · cases hmem
      · exact hnext y hy
    | cons id pending =>
      have := card_unknown_visit hall id known
      rw [reachable] at hx ⊢
      -- the visited one is pending no more, and all its steps are known now
      refine ih ?_ (fun z hz => ?_) hx
      · simp only [List.length_cons, List.length_append] at h ⊢
        omega
      · rcases List.mem_append.1 hz with hz | hz
        · rcases hclosed z hz with hmem | hnext
          · rcases List.mem_cons.1 hmem with rfl | hmem
            · refine .inr fun w hw => ?_
              by_cases hk : w ∈ known
              · exact List.mem_append_left _ hk
              · have hnew : w ∈ (firsts (next z)).filter (· ∉ known) :=
                  List.mem_filter.2 ⟨mem_firsts.2 hw, by simpa using hk⟩
                exact List.mem_append_right _ hnew
            · exact .inl (List.mem_append_left _ hmem)
          · exact .inr fun w hw => List.mem_append_left _ (hnext w hw)
        · exact .inl (List.mem_append_right _ hz)

/-- The visits come to an end by themselves, not because they are counted. -/
theorem visited_reachable {fuel : Nat} {pending known : List String}
    (h : pending.length + (all \ known.toFinset).card ≤ fuel) :
    Visited next pending known (reachable next fuel pending known) := by
  induction fuel generalizing pending known with
  | zero =>
    have hnil : pending = [] := List.eq_nil_of_length_eq_zero (by omega)
    subst hnil
    exact .done known
  | succ fuel ih =>
    cases pending with
    | nil => exact .done known
    | cons id pending =>
      have := card_unknown_visit hall id known
      refine .visit (ih ?_)
      simp only [List.length_cons, List.length_append] at h ⊢
      omega

omit hall in
theorem pending_add_card_le {fuel : Nat} (h : all.card < fuel) (root : String) :
    [root].length + (all \ [root].toFinset).card ≤ fuel := by
  have hcard := Finset.card_le_card (Finset.sdiff_subset (s := all) (t := [root].toFinset))
  rw [List.length_singleton]
  omega

theorem mem_reachable_iff {fuel : Nat} (h : all.card < fuel) {root x : String} :
    x ∈ reachable next fuel [root] [root] ↔ ReflTransGen (fun a b => b ∈ next a) root x := by
  have henough := pending_add_card_le h root
  constructor
  · intro hx
    have hroot : ∀ y ∈ [root], ReflTransGen (fun a b => b ∈ next a) root y := by
      intro y hy
      rw [List.mem_singleton.1 hy]
    exact reachable_induction (fun a b ha hb => ha.tail hb) hroot hroot hx
  · intro hx
    induction hx with
    | refl => exact mem_reachable_of_mem (List.mem_singleton_self root)
    | tail _ hstep ih => exact closed_reachable hall henough (fun z hz => .inl hz) ih hstep

end Enough

theorem reachable_eq {all all' : Finset String} (hall : ∀ x, ∀ y ∈ next x, y ∈ all)
    (hall' : ∀ x, ∀ y ∈ next x, y ∈ all') {fuel fuel' : Nat} (h : all.card < fuel)
    (h' : all'.card < fuel') (root : String) :
    reachable next fuel [root] [root] = reachable next fuel' [root] [root] := by
  have hleft := reachable_add hall fuel' (pending_add_card_le h root)
  have hright := reachable_add hall' fuel (pending_add_card_le h' root)
  rw [← hleft, ← hright, Nat.add_comm]

end Cabinet
