import Mathlib.Algebra.Order.Ring.Nat
import Mathlib.Data.List.Forall2
import Cabinet.Criteria.Plan
import Cabinet.Store.Attributes

/-! One value from each of several lists, in every way. Main statement: the values that criteria with
a choice look up are those that composite attributes are filed under, in the same order: each stands
at the number that the places of its components write, the first component being worth the most. -/

namespace Cabinet

namespace Places

variable {sizes ds : List Nat} {n : Nat}

/-- The number that digits write. A digit is worth as much as the places behind it can number. -/
def number : List Nat → List Nat → Nat
  | _ :: sizes, d :: ds => d * sizes.prod + number sizes ds
  | _, _ => 0

def digits : List Nat → Nat → List Nat
  | [], _ => []
  | _ :: sizes, n => n / sizes.prod :: digits sizes (n % sizes.prod)

theorem number_lt (h : List.Forall₂ (· < ·) ds sizes) : number sizes ds < sizes.prod := by
  induction h with
  | nil => simp [number]
  | @cons d size ds sizes hd _ ih =>
    rw [List.prod_cons, number]
    calc d * sizes.prod + number sizes ds
        < (d + 1) * sizes.prod := by rw [Nat.succ_mul]; exact Nat.add_lt_add_left ih _
      _ ≤ size * sizes.prod := Nat.mul_le_mul_right _ hd

theorem digits_lt (h : n < sizes.prod) : List.Forall₂ (· < ·) (digits sizes n) sizes := by
  induction sizes generalizing n with
  | nil => exact .nil
  | cons size sizes ih =>
    rw [List.prod_cons] at h
    have hpos : 0 < sizes.prod := Nat.pos_of_lt_mul_left h
    exact .cons ((Nat.div_lt_iff_lt_mul hpos).2 h) (ih (Nat.mod_lt n hpos))

theorem number_digits (h : n < sizes.prod) : number sizes (digits sizes n) = n := by
  induction sizes generalizing n with
  | nil => simp_all [number]
  | cons size sizes ih =>
    rw [List.prod_cons] at h
    have hpos : 0 < sizes.prod := Nat.pos_of_lt_mul_left h
    rw [digits, number, ih (Nat.mod_lt n hpos), Nat.mul_comm, Nat.div_add_mod]

end Places

namespace Attribute

variable {lists : List (List String)} {values : List String}

theorem combinations_cons (values : List String) (rest : List (List String)) :
    combinations (values :: rest) =
      values.flatMap fun value => (combinations rest).map (value :: ·) := by
  -- What is put behind the fronts chosen so far does not depend on them.
  have hfold (lists chosen : List (List String)) : lists.foldl
      (fun chosen values => chosen.flatMap fun front => values.map fun value => front ++ [value])
      chosen = chosen.flatMap fun front => (combinations lists).map (front ++ ·) := by
    induction lists generalizing chosen with
    | nil => simp [combinations]
    | cons values lists ih =>
      rw [combinations, List.foldl_cons, List.foldl_cons, ih, ih]
      simp [List.flatMap_assoc, List.flatMap_map, List.map_flatMap, Function.comp_def]
  rw [combinations, List.foldl_cons, hfold]
  simp [List.flatMap_map]

theorem mem_combinations : values ∈ combinations lists ↔
    List.Forall₂ (fun vs v => v ∈ vs) lists values := by
  induction lists generalizing values with
  | nil => simp [combinations]
  | cons vs rest ih =>
    simp only [combinations_cons, List.mem_flatMap, List.mem_map, ih, List.forall₂_cons_left_iff]
    constructor
    · rintro ⟨v, hv, back, hback, rfl⟩
      exact ⟨v, back, hv, hback, rfl⟩
    · rintro ⟨v, back, hv, hback, rfl⟩
      exact ⟨v, hv, back, hback, rfl⟩

theorem length_combinations (lists : List (List String)) :
    (combinations lists).length = (lists.map List.length).prod := by
  induction lists with
  | nil => rfl
  | cons vs rest ih => simp [combinations_cons, List.length_flatMap, ih]

theorem getElem?_flatMap_of_length {α β : Type} {as : List α} {f : α → List β} {n d r : Nat}
    (hlength : ∀ a ∈ as, (f a).length = n) (hr : r < n) :
    (as.flatMap f)[d * n + r]? = as[d]?.bind fun a => (f a)[r]? := by
  induction as generalizing d with
  | nil => rfl
  | cons a as ih =>
    obtain ⟨ha, has⟩ := List.forall_mem_cons.1 hlength
    rw [List.flatMap_cons]
    cases d with
    | zero =>
      rw [Nat.zero_mul, Nat.zero_add, List.getElem?_append_left (ha ▸ hr)]
      rfl
    | succ d =>
      have hindex : (d + 1) * n + r = (f a).length + (d * n + r) := by rw [ha, Nat.succ_mul]; omega
      rw [hindex, List.getElem?_append_right (Nat.le_add_right _ _), Nat.add_sub_cancel_left, ih has,
        List.getElem?_cons_succ]

/-- The combination whose number the digits write takes from each list the value at its digit. -/
theorem getElem?_combinations {ds : List Nat}
    (h : List.Forall₂ (· < ·) ds (lists.map List.length)) :
    ∃ values, (combinations lists)[Places.number (lists.map List.length) ds]? = some values ∧
      List.zipWith (fun vs d => vs[d]?) lists ds = values.map some := by
  induction lists generalizing ds with
  | nil => exact ⟨[], rfl, by simp⟩
  | cons vs rest ih =>
    rw [List.map_cons] at h
    obtain ⟨d, ds, hd, hds, rfl⟩ := List.forall₂_cons_right_iff.1 h
    obtain ⟨values, hvalues, hpicked⟩ := ih hds
    refine ⟨vs[d] :: values, ?_, by simp [hpicked, hd]⟩
    have hlength : ∀ v ∈ vs, ((combinations rest).map (v :: ·)).length =
        (rest.map List.length).prod := by simp [length_combinations]
    rw [combinations_cons, List.map_cons, Places.number,
      getElem?_flatMap_of_length hlength (Places.number_lt hds), List.getElem?_eq_getElem hd,
      Option.bind_some, List.getElem?_map, hvalues]
    rfl

end Attribute

/-- The criterion leaves the choice between some values, or fixes the only one. -/
def Criterion.Offers (x : Criterion) (values : List String) : Prop :=
  x.eqOr = some values ∨ x.eqOr = none ∧ ∃ value, x.eq = some value ∧ values = [value]

theorem Criterion.Offers.choices_eq {x : Criterion} {values : List String} (h : x.Offers values) :
    x.choices = values := by
  rcases h with hor | ⟨hor, value, heq, rfl⟩
  · rw [choices, hor]
  · rw [choices, hor, heq]

namespace Criteria

variable {list : List Criterion} {lists : List (List String)}

theorem joinedChoices_eq_map (lists : List (List String)) :
    joinedChoices lists = (Attribute.combinations lists).map (Text.joinWith compositeDelimiter) := by
  fun_induction joinedChoices lists with
  | case1 => rfl
  | case2 values => simp [Attribute.combinations, Function.comp_def]
  | case3 values next rest ih =>
    rw [Attribute.combinations_cons, List.map_flatMap, ih]
    refine List.flatMap_congr fun value _ => ?_
    rw [List.map_map, List.map_map]
    refine List.map_congr_left fun tail htail => ?_
    have hne : tail ≠ [] := by
      rintro rfl
      cases Attribute.mem_combinations.1 htail
    exact (Text.joinWith_cons compositeDelimiter value hne).symm

theorem map_choices_eq (h : List.Forall₂ Criterion.Offers list lists) :
    list.map Criterion.choices = lists := by
  induction h with
  | nil => rfl
  | cons hx _ ih => rw [List.map_cons, hx.choices_eq, ih]

/-- Criteria that leave a choice look up the combinations of their values, joined: as many as the
product of the numbers of values, and at each index the one that takes from each list the value at
the digit of the index there, the first digit being worth the most. -/
theorem expansions_agree (hoffers : List.Forall₂ Criterion.Offers list lists)
    (hchoice : ∃ x ∈ list, x.eqOr.isSome) :
    (compile ⟨list⟩).eqOr = some (joinedChoices (list.map Criterion.choices)) ∧
      joinedChoices (list.map Criterion.choices) =
        (Attribute.combinations lists).map (Text.joinWith compositeDelimiter) ∧
      (joinedChoices (list.map Criterion.choices)).length = (lists.map List.length).prod ∧
      ∀ i < (lists.map List.length).prod, ∃ ds values,
        List.Forall₂ (· < ·) ds (lists.map List.length) ∧
          Places.number (lists.map List.length) ds = i ∧
          List.zipWith (fun vs d => vs[d]?) lists ds = values.map some ∧
          (Attribute.combinations lists)[i]? = some values ∧
          (joinedChoices (list.map Criterion.choices))[i]? =
            some (Text.joinWith compositeDelimiter values) := by
  have hany : list.any (·.eqOr.isSome) = true := List.any_eq_true.2 hchoice
  have hjoined : joinedChoices (list.map Criterion.choices) =
      (Attribute.combinations lists).map (Text.joinWith compositeDelimiter) := by
    rw [map_choices_eq hoffers, joinedChoices_eq_map]
  refine ⟨by simp [compile, hany], hjoined, ?_, fun i hi => ?_⟩
  · rw [hjoined, List.length_map, Attribute.length_combinations]
  · have hdigits := Places.digits_lt hi
    obtain ⟨values, hentry, hpicked⟩ := Attribute.getElem?_combinations hdigits
    rw [Places.number_digits hi] at hentry
    refine ⟨_, values, hdigits, Places.number_digits hi, hpicked, hentry, ?_⟩
    rw [hjoined, List.getElem?_map, hentry]
    rfl

def anyShirt : List Criterion :=
  [{ key := "size", eqOr := some ["s", "m"] }, { key := "kind", eq := some "shirt" },
    { key := "colour", eqOr := some ["red", "green", "blue"] }]

theorem anyShirt_expansions_agree :
    let lists := [["s", "m"], ["shirt"], ["red", "green", "blue"]]
    List.Forall₂ Criterion.Offers anyShirt lists ∧ (∃ x ∈ anyShirt, x.eqOr.isSome) ∧
      (compile ⟨anyShirt⟩).eqOr = some ["s::shirt::red", "s::shirt::green", "s::shirt::blue",
        "m::shirt::red", "m::shirt::green", "m::shirt::blue"] ∧
      Places.number [2, 1, 3] [1, 0, 1] = 4 ∧
      joinedChoices (anyShirt.map Criterion.choices) =
        (Attribute.combinations lists).map (Text.joinWith compositeDelimiter) ∧
      ∀ i < (lists.map List.length).prod, ∃ ds values,
        List.Forall₂ (· < ·) ds (lists.map List.length) ∧
          Places.number (lists.map List.length) ds = i ∧
          List.zipWith (fun vs d => vs[d]?) lists ds = values.map some ∧
          (Attribute.combinations lists)[i]? = some values ∧
          (joinedChoices (anyShirt.map Criterion.choices))[i]? =
            some (Text.joinWith compositeDelimiter values) := by
  intro lists
  have hoffers : List.Forall₂ Criterion.Offers anyShirt lists :=
    .cons (.inl rfl) (.cons (.inr ⟨rfl, "shirt", rfl, rfl⟩) (.cons (.inl rfl) .nil))
  have hchoice : ∃ x ∈ anyShirt, x.eqOr.isSome := ⟨_, List.mem_cons_self, rfl⟩
  obtain ⟨hcompile, hjoined, -, hentries⟩ := expansions_agree hoffers hchoice
  exact ⟨hoffers, hchoice, hcompile.trans (by decide +kernel), rfl, hjoined, hentries⟩

end Criteria

end Cabinet
