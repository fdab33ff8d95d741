import Mathlib.Data.List.Forall2
import Cabinet.Distinct
import Cabinet.Proofs.Sorting

/-! Keeping the first of equal elements. Main statements: it makes no difference when the parts of a
list have been thinned out before, or when the elements are looked up afterwards. -/

namespace Cabinet

variable {α β : Type} [DecidableEq β]

theorem firstsBy_eq_self {key : α → β} {as : List α}
    (h : as.Pairwise fun a b => key a ≠ key b) : firstsBy key as = as := by
  induction as with
  | nil => rfl
  | cons a as ih =>
    obtain ⟨ha, has⟩ := List.pairwise_cons.1 h
    rw [firstsBy, ih has, List.filter_eq_self.2 fun b hb => decide_eq_true (ha b hb).symm]

theorem mem_firstsBy_iff {key : α → β} {as : List α} {a : α} :
    a ∈ firstsBy key as ↔ as.find? (key · = key a) = some a := by
  induction as with
  | nil => simp [firstsBy]
  | cons b as ih =>
    rw [firstsBy, List.mem_cons, List.mem_filter, decide_eq_true_iff, ih, List.find?_cons]
    by_cases h : key b = key a
    · simp [h, eq_comm]
    · have hne : a ≠ b := fun he => h (congrArg key he.symm)
      simp [h, hne, Ne.symm h]

theorem mem_of_mem_firstsBy {key : α → β} {as : List α} {a : α} (h : a ∈ firstsBy key as) :
    a ∈ as :=
  List.mem_of_find?_eq_some (mem_firstsBy_iff.1 h)

theorem exists_mem_firstsBy (key : α → β) {as : List α} {a : α} (h : a ∈ as) :
    ∃ b ∈ firstsBy key as, key b = key a := by
  have hfound : (as.find? (key · = key a)).isSome := List.find?_isSome.2 ⟨a, h, decide_eq_true rfl⟩
  obtain ⟨b, hb⟩ := Option.isSome_iff_exists.1 hfound
  have hkey : key b = key a := by simpa using List.find?_some hb
  exact ⟨b, mem_firstsBy_iff.2 (hkey ▸ hb), hkey⟩

theorem pairwise_firstsBy (key : α → β) (as : List α) :
    (firstsBy key as).Pairwise fun a b => key a ≠ key b := by
  induction as with
  | nil => exact .nil
  | cons a as ih =>
    rw [firstsBy, List.pairwise_cons]
    exact ⟨fun b hb => (of_decide_eq_true (List.mem_filter.1 hb).2).symm, ih.filter _⟩

variable [DecidableEq α]

theorem firsts_eq_self {as : List α} (h : as.Nodup) : firsts as = as := firstsBy_eq_self h

theorem firsts_firsts (as : List α) : firsts (firsts as) = firsts as :=
  firsts_eq_self (nodup_firsts as)

theorem firsts_cons (a : α) (as : List α) : firsts (a :: as) = a :: (firsts as).filter (· ≠ a) := rfl

theorem firsts_append (as bs : List α) :
    firsts (as ++ bs) = firsts as ++ (firsts bs).filter (· ∉ as) := by
  induction as with
  | nil => simp [firsts, firstsBy]
  | cons a as ih =>
    rw [List.cons_append, firsts_cons, firsts_cons, ih, List.filter_append, List.filter_filter,
      List.cons_append]
    refine congrArg _ (congrArg _ (List.filter_congr fun b _ => ?_))
    simp

theorem firsts_flatten_congr {lists lists' : List (List α)}
    (h : List.Forall₂ (fun as bs => firsts as = firsts bs) lists lists') :
    firsts lists.flatten = firsts lists'.flatten := by
  induction h with
  | nil => rfl
  | @cons as bs lists lists' hfirst _ ih =>
    have hmem (a : α) : a ∈ as ↔ a ∈ bs := by rw [← mem_firsts, hfirst, mem_firsts]
    rw [List.flatten_cons, List.flatten_cons, firsts_append, firsts_append, hfirst, ih]
    simp only [hmem]

theorem firsts_flatMap_firsts (lists : List (List α)) :
    firsts (lists.flatMap firsts) = firsts lists.flatten := by
  rw [List.flatMap_def]
  refine firsts_flatten_congr (List.forall₂_map_left_iff.2 (List.forall₂_same.2 fun as _ => ?_))
  exact firsts_firsts as

/-- Elements that are told apart by what is looked up can be thinned out before or afterwards. -/
theorem firsts_filterMap {f : α → Option β}
    (h : ∀ a a' b, f a = some b → f a' = some b → a = a') (as : List α) :
    firsts (as.filterMap f) = (firsts as).filterMap f := by
  induction as with
  | nil => rfl
  | cons a as ih =>
    rw [firsts_cons, List.filterMap_cons, List.filterMap_cons]
    cases ha : f a with
    | none =>
      simp only
      rw [ih, List.filterMap_filter]
      refine List.filterMap_congr fun x _ => ?_
      by_cases hx : x = a
      · simp [hx, ha]
      · simp [hx]
    | some b =>
      simp only
      rw [firsts_cons, ih, List.filter_filterMap, List.filterMap_filter]
      refine congrArg _ (List.filterMap_congr fun x _ => ?_)
      by_cases hx : x = a
      · simp [hx, ha]
      · cases hy : f x with
        | none => simp
        | some y =>
          have hne : y ≠ b := fun hyb => hx (h x a b (hyb ▸ hy) ha)
          simp [hx, hne]

theorem firsts_filter (p : α → Bool) (as : List α) :
    firsts (as.filter p) = (firsts as).filter p := by
  have hguard : ∀ a a' b, Option.guard p a = some b → Option.guard p a' = some b → a = a' := by
    intro a a' b h h'
    rw [Option.guard_eq_some_iff] at h h'
    exact h.1.trans h'.1.symm
  rw [← List.filterMap_eq_filter, firsts_filterMap hguard]

theorem eraseDups_eq_firsts : ∀ as : List α, as.eraseDups = firsts as
  | [] => rfl
  | a :: as => by
    rw [List.eraseDups_cons, eraseDups_eq_firsts (as.filter _), firsts_filter, firsts_cons]
    simp only [ne_eq, decide_not]
    rfl
termination_by as => as.length
decreasing_by exact Nat.lt_succ_of_le (List.length_filter_le _ _)

@[simp] theorem mem_distinct {before : α → α → Bool} {a : α} {as : List α} :
    a ∈ distinct before as ↔ a ∈ as := by
  rw [distinct, mem_sortBy, mem_firsts]

theorem nodup_distinct (before : α → α → Bool) (as : List α) : (distinct before as).Nodup :=
  (sortBy_perm before _).nodup_iff.2 (nodup_firsts as)

theorem pairwise_distinct {before : α → α → Bool}
    (asymm : ∀ a b, before a b → before b a = false)
    (between : ∀ a b c, before a c → before a b ∨ before b c)
    (total : ∀ a b, a ≠ b → before b a = false → before a b) (as : List α) :
    (distinct before as).Pairwise fun a b => before a b :=
  ((pairwise_sortBy asymm between _).and (nodup_distinct before as)).imp fun {a b} h =>
    total a b h.2 h.1

section

variable {α : Type} {key : α → β} {a b : α} {as : List α}

/-- Elements with the same key are neighbours. -/
def IsGrouped (key : α → β) (as : List α) : Prop :=
  ∀ a b c, [a, b, c].Sublist as → key a = key c → key b = key a

omit [DecidableEq β] in
theorem IsGrouped.tail (h : IsGrouped key (a :: as)) : IsGrouped key as :=
  fun x y z hsub => h x y z (hsub.cons a)

omit [DecidableEq β] in
theorem isGrouped_filterMap {γ : Type} {f : γ → Option α} {xs : List γ}
    (h : ∀ x y z, [x, y, z].Sublist xs → ∀ a b c, f x = some a → f y = some b → f z = some c →
      key a = key c → key b = key a) : IsGrouped key (xs.filterMap f) := by
  intro a b c hsub
  obtain ⟨ys, hys, hfound⟩ := List.sublist_filterMap_iff.1 hsub
  obtain ⟨skipped, x, ys, rfl, -, hx, hfound⟩ := List.filterMap_eq_cons_iff.1 hfound.symm
  obtain ⟨skipped', y, ys, rfl, -, hy, hfound⟩ := List.filterMap_eq_cons_iff.1 hfound
  obtain ⟨skipped'', z, ys, rfl, -, hz, -⟩ := List.filterMap_eq_cons_iff.1 hfound
  refine h x y z (List.Sublist.trans ?_ hys) a b c hx hy hz
  have hlast : [z].Sublist (skipped'' ++ z :: ys) := List.singleton_sublist.2 (by simp)
  have hmid : [y, z].Sublist (skipped' ++ y :: (skipped'' ++ z :: ys)) :=
    (hlast.cons_cons y).trans (List.sublist_append_right _ _)
  exact (hmid.cons_cons x).trans (List.sublist_append_right _ _)

theorem exists_firstOfRuns_cons (key : α → β) (a : α) (as : List α) :
    ∃ rest, firstOfRuns key (a :: as) = a :: rest := by
  cases as with
  | nil => exact ⟨[], rfl⟩
  | cons b as =>
    rw [firstOfRuns]
    split
    · exact ⟨[], rfl⟩
    · split
      · exact ⟨_, rfl⟩
      · exact ⟨_, rfl⟩

theorem firstOfRuns_cons_cons (key : α → β) (a b : α) (as : List α) :
    firstOfRuns key (a :: b :: as) =
      if key b = key a then a :: (firstOfRuns key (b :: as)).tail
      else a :: firstOfRuns key (b :: as) := by
  obtain ⟨rest, hrest⟩ := exists_firstOfRuns_cons key b as
  rw [firstOfRuns, hrest]
  rfl

theorem mem_of_mem_firstOfRuns (h : b ∈ firstOfRuns key as) : b ∈ as := by
  induction as with
  | nil => cases h
  | cons a as ih =>
    cases as with
    | nil => exact h
    | cons c as =>
      rw [firstOfRuns_cons_cons] at h
      split at h <;> rcases List.mem_cons.1 h with rfl | h
      · exact List.mem_cons_self
      · exact List.mem_cons_of_mem a (ih (List.mem_of_mem_tail h))
      · exact List.mem_cons_self
      · exact List.mem_cons_of_mem a (ih h)

theorem exists_mem_firstOfRuns (h : b ∈ as) : ∃ a ∈ firstOfRuns key as, key a = key b := by
  induction as generalizing b with
  | nil => cases h
  | cons a as ih =>
    cases as with
    | nil => exact ⟨a, List.mem_cons_self, by rw [List.mem_singleton.1 h]⟩
    | cons c as =>
      rw [firstOfRuns_cons_cons]
      rcases List.mem_cons.1 h with rfl | h
      · split <;> exact ⟨b, List.mem_cons_self, rfl⟩
      · obtain ⟨x, hx, hkey⟩ := ih h
        split
        · rename_i hsame
          -- the head of what follows has the key of the new one
          obtain ⟨rest, hrest⟩ := exists_firstOfRuns_cons key c as
          rw [hrest] at hx ⊢
          rcases List.mem_cons.1 hx with rfl | hx
          · exact ⟨a, List.mem_cons_self, hsame.symm.trans hkey⟩
          · exact ⟨x, List.mem_cons_of_mem a hx, hkey⟩
        · exact ⟨x, List.mem_cons_of_mem a hx, hkey⟩

theorem IsGrouped.pairwise_firstOfRuns (h : IsGrouped key as) :
    (firstOfRuns key as).Pairwise fun a b => key a ≠ key b := by
  induction as with
  | nil => exact .nil
  | cons a as ih =>
    cases as with
    | nil => exact List.pairwise_singleton _ _
    | cons c as =>
      have htail := ih h.tail
      obtain ⟨rest, hrest⟩ := exists_firstOfRuns_cons key c as
      obtain ⟨hhead, hafter⟩ := List.pairwise_cons.1 (hrest ▸ htail)
      rw [firstOfRuns_cons_cons, hrest, List.tail_cons]
      split
      · rename_i hsame
        exact List.pairwise_cons.2 ⟨fun x hx => hsame ▸ hhead x hx, hafter⟩
      · rename_i hother
        refine List.pairwise_cons.2 ⟨fun x hx he => ?_, List.pairwise_cons.2 ⟨hhead, hafter⟩⟩
        rcases List.mem_cons.1 hx with rfl | hx'
        · exact hother he.symm
        · -- an element further on stands behind the one next to the head
          have hmem : x ∈ c :: as := mem_of_mem_firstOfRuns (hrest ▸ hx : x ∈ firstOfRuns key _)
          have hlater : x ∈ as := (List.mem_cons.1 hmem).resolve_left fun hxc =>
            hhead x hx' (hxc ▸ rfl)
          have hsub : [a, c, x].Sublist (a :: c :: as) :=
            ((List.singleton_sublist.2 hlater).cons_cons c).cons_cons a
          exact hother (h a c x hsub he)

end

end Cabinet
