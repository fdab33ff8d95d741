import Mathlib.Data.List.Pairwise
import Mathlib.Data.List.Sort
import Cabinet.Sorting

/-! Sorting by insertion, for an order that says which of two elements is strictly before the other:
it is the library's insertion sort for the order in which no later element is before an earlier
one. -/

namespace Cabinet

variable {α : Type} {before : α → α → Bool} {a : α} {as bs : List α}

theorem insertBy_eq_orderedInsert (before : α → α → Bool) (a : α) (bs : List α) :
    insertBy before a bs = bs.orderedInsert (fun a b => ¬before b a) a := by
  induction bs with
  | nil => rfl
  | cons b bs ih => cases h : before b a <;> simp [insertBy, ih, h]

theorem sortBy_eq_insertionSort (before : α → α → Bool) (as : List α) :
    sortBy before as = as.insertionSort fun a b => ¬before b a := by
  induction as with
  | nil => rfl
  | cons a as ih => rw [sortBy, ih, insertBy_eq_orderedInsert, List.insertionSort_cons]

theorem sortBy_perm (before : α → α → Bool) (as : List α) : (sortBy before as).Perm as :=
  sortBy_eq_insertionSort before as ▸ List.perm_insertionSort _ as

@[simp] theorem mem_sortBy : a ∈ sortBy before as ↔ a ∈ as := (sortBy_perm before as).mem_iff

@[simp] theorem length_sortBy (before : α → α → Bool) (as : List α) :
    (sortBy before as).length = as.length :=
  (sortBy_perm before as).length_eq

theorem pairwise_sortBy (asymm : ∀ a b, before a b → before b a = false)
    (between : ∀ a b c, before a c → before a b ∨ before b c) (as : List α) :
    (sortBy before as).Pairwise fun a b => before b a = false := by
  have total : Std.Total fun a b => ¬before b a := ⟨fun a b => by
    cases h : before b a with
    | false => simp
    | true => simp [asymm b a h]⟩
  have trans : IsTrans α fun a b => ¬before b a := ⟨fun a b c hab hbc hca =>
    (between c b a hca).elim hbc hab⟩
  rw [sortBy_eq_insertionSort]
  exact (List.pairwise_insertionSort _ as).imp Bool.eq_false_of_not_eq_true

theorem sortBy_eq_of_perm (asymm : ∀ a b, before a b → before b a = false)
    (between : ∀ a b c, before a c → before a b ∨ before b c) (h : as.Perm bs)
    (hbs : bs.Pairwise fun a b => before a b) : sortBy before as = bs := by
  have hperm : (sortBy before as).Perm bs := (sortBy_perm before as).trans h
  refine List.Perm.eq_of_pairwise (fun a b ha hb hba hab => ?_)
    (pairwise_sortBy asymm between as) (hbs.imp fun {a b} hab => asymm a b hab) hperm
  -- of two elements one is before the other, unless they are the same
  have : Std.Symm fun a b => before a b ∨ before b a := ⟨fun _ _ => Or.symm⟩
  have heither : bs.Pairwise fun a b => before a b ∨ before b a := hbs.imp Or.inl
  by_contra hne
  simpa [hba, hab] using heither.forall (hperm.mem_iff.1 ha) hb hne

end Cabinet
